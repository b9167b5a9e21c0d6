import Mathlib.Data.List.Induction
import Mathlib.Order.Lattice

/-! Finite maps with ordered keys, kept as the sorted list of their entries. -/

structure OrderedMap (κ α : Type) [LinearOrder κ] where
  entries : List (κ × α)
  sorted : entries.Pairwise fun a b => a.1 < b.1

namespace OrderedMap

open List Option

variable {κ α : Type} [LinearOrder κ]

def empty : OrderedMap κ α := ⟨[], .nil⟩

def get? (m : OrderedMap κ α) (k : κ) : Option α :=
  (m.entries.find? fun e => decide (e.1 = k)).map Prod.snd

def first? (m : OrderedMap κ α) : Option (κ × α) := m.entries.head?

def insertEntry (k : κ) (v : α) : List (κ × α) → List (κ × α)
  | [] => [(k, v)]
  | e :: es =>
    if k < e.1 then (k, v) :: e :: es else if k = e.1 then (k, v) :: es else e :: insertEntry k v es

variable {es pre after : List (κ × α)} {x e : κ × α} {l : List α}

theorem mem_insertEntry {k : κ} {v : α} (hs : es.Pairwise fun a b => a.1 < b.1) :
    x ∈ insertEntry k v es ↔ x = (k, v) ∨ (x ∈ es ∧ x.1 ≠ k) := by
  induction es with
  | nil => simp [insertEntry]
  | cons e es ih =>
    obtain ⟨hlt, hs⟩ := pairwise_cons.mp hs
    rw [insertEntry]
    split
    · next hk =>
      have hne : ∀ y ∈ e :: es, y.1 ≠ k := by
        intro y hy
        rcases mem_cons.mp hy with rfl | hy
        · exact ne_of_gt hk
        · exact ne_of_gt (lt_trans hk (hlt y hy))
      rw [mem_cons]
      exact or_congr_right ⟨fun hx => ⟨hx, hne x hx⟩, And.left⟩
    · split
      · next hk =>
        have hne : ∀ y ∈ es, y.1 ≠ k := fun y hy => ne_of_gt (hk ▸ hlt y hy)
        rw [mem_cons, mem_cons]
        refine or_congr_right ⟨fun hx => ⟨.inr hx, hne x hx⟩, ?_⟩
        rintro ⟨rfl | hx, hxk⟩
        · exact (hxk hk.symm).elim
        · exact hx
      · next hk =>
        rw [mem_cons, ih hs, mem_cons]
        constructor
        · rintro (rfl | rfl | ⟨hx, hxk⟩)
          · exact .inr ⟨.inl rfl, fun h => hk h.symm⟩
          · exact .inl rfl
          · exact .inr ⟨.inr hx, hxk⟩
        · rintro (rfl | ⟨rfl | hx, hxk⟩)
          · exact .inr (.inl rfl)
          · exact .inl rfl
          · exact .inr (.inr ⟨hx, hxk⟩)

theorem insertEntry_sorted {k : κ} {v : α} (hs : es.Pairwise fun a b => a.1 < b.1) :
    (insertEntry k v es).Pairwise fun a b => a.1 < b.1 := by
  induction es with
  | nil => exact pairwise_singleton _ _
  | cons e es ih =>
    obtain ⟨hlt, hs'⟩ := pairwise_cons.mp hs
    rw [insertEntry]
    split
    · next hk =>
      refine pairwise_cons.mpr ⟨fun y hy => ?_, hs⟩
      rcases mem_cons.mp hy with rfl | hy
      · exact hk
      · exact lt_trans hk (hlt y hy)
    · split
      · next hk => exact pairwise_cons.mpr ⟨fun y hy => hk ▸ hlt y hy, hs'⟩
      · next hle hne =>
        refine pairwise_cons.mpr ⟨fun y hy => ?_, ih hs'⟩
        rcases (mem_insertEntry hs').mp hy with rfl | ⟨hy, -⟩
        · exact lt_of_le_of_ne (not_lt.mp hle) fun h => hne h.symm
        · exact hlt y hy

def insert (m : OrderedMap κ α) (k : κ) (v : α) : OrderedMap κ α :=
  ⟨insertEntry k v m.entries, insertEntry_sorted m.sorted⟩

def erase (m : OrderedMap κ α) (k : κ) : OrderedMap κ α :=
  ⟨m.entries.filter fun e => decide (e.1 ≠ k), m.sorted.filter _⟩

def modify (m : OrderedMap κ α) (k : κ) (f : α → α) : OrderedMap κ α :=
  ⟨m.entries.map fun e => (e.1, if e.1 = k then f e.2 else e.2),
    List.pairwise_map.mpr (m.sorted.imp fun h => h)⟩

def mapValues (m : OrderedMap κ α) (f : α → α) : OrderedMap κ α :=
  ⟨m.entries.map fun e => (e.1, f e.2), List.pairwise_map.mpr (m.sorted.imp fun h => h)⟩

def values (m : OrderedMap κ α) : List α := m.entries.map Prod.snd

def length (m : OrderedMap κ α) : Nat := m.entries.length

variable {m : OrderedMap κ α} {k : κ} {v : α}

theorem exists_split (h : (k, v) ∈ m.entries) : ∃ pre after, m.entries = pre ++ (k, v) :: after ∧
    (∀ e ∈ pre, e.1 ≠ k) ∧ ∀ e ∈ after, e.1 ≠ k := by
  obtain ⟨pre, after, hsp⟩ := append_of_mem h
  have hs := m.sorted
  rw [hsp, pairwise_append, pairwise_cons] at hs
  obtain ⟨-, ⟨ha, -⟩, hb⟩ := hs
  exact ⟨pre, after, hsp, fun e he => ne_of_lt (hb e he _ mem_cons_self),
    fun e he => ne_of_gt (ha e he)⟩

theorem eq_of_mem {v' : α} (h : (k, v) ∈ m.entries) (h' : (k, v') ∈ m.entries) : v = v' := by
  obtain ⟨pre, after, hs, hb, ha⟩ := exists_split h
  rw [hs, mem_append, mem_cons] at h'
  rcases h' with h' | h' | h'
  · exact (hb _ h' rfl).elim
  · exact (congrArg Prod.snd h').symm
  · exact (ha _ h' rfl).elim

theorem mem_of_get? (h : m.get? k = some v) : (k, v) ∈ m.entries := by
  obtain ⟨e, he, rfl⟩ := map_eq_some_iff.mp h
  have hk : e.1 = k := by simpa using find?_some he
  exact hk ▸ mem_of_find?_eq_some he

theorem get?_of_mem (h : (k, v) ∈ m.entries) : m.get? k = some v := by
  cases hget : m.get? k with
  | some v' => rw [eq_of_mem h (mem_of_get? hget)]
  | none =>
    rw [get?, map_eq_none_iff, find?_eq_none] at hget
    simpa using hget _ h

instance [DecidableEq α] : DecidableEq (OrderedMap κ α) := fun m n =>
  decidable_of_iff (m.entries = n.entries)
    ⟨fun h => by cases m; cases n; cases h; rfl, congrArg entries⟩

theorem get?_insert_self : (m.insert k v).get? k = some v :=
  get?_of_mem (mem_insertEntry m.sorted |>.mpr (.inl rfl))

theorem get?_insert_of_ne {k' : κ} (h : k' ≠ k) : (m.insert k v).get? k' = m.get? k' := by
  ext v'
  constructor
  · intro hget
    rcases (mem_insertEntry m.sorted).mp (mem_of_get? hget) with heq | ⟨hmem, -⟩
    · exact (h (congrArg Prod.fst heq)).elim
    · exact get?_of_mem hmem
  · intro hget
    exact get?_of_mem ((mem_insertEntry m.sorted).mpr (.inr ⟨mem_of_get? hget, h⟩))

theorem mem_insert : x ∈ (m.insert k v).entries ↔ x = (k, v) ∨ (x ∈ m.entries ∧ x.1 ≠ k) :=
  mem_insertEntry m.sorted

theorem mem_erase : x ∈ (m.erase k).entries ↔ x ∈ m.entries ∧ x.1 ≠ k := by
  simp [erase]

theorem mem_modify {f : α → α} (h : x ∈ (m.modify k f).entries) :
    ∃ v, (x.1, v) ∈ m.entries ∧ x.2 = if x.1 = k then f v else v := by
  obtain ⟨e, he, rfl⟩ := mem_map.mp h
  exact ⟨e.2, he, rfl⟩

theorem first?_le (h : m.first? = some e) (hx : x ∈ m.entries) : e.1 ≤ x.1 := by
  obtain ⟨rest, hr⟩ := head?_eq_some_iff.mp h
  have hs := m.sorted
  rw [hr, pairwise_cons] at hs
  rw [hr, mem_cons] at hx
  rcases hx with rfl | hx
  · exact le_refl _
  · exact le_of_lt (hs.1 x hx)

theorem mem_of_first? (h : m.first? = some e) : e ∈ m.entries := mem_of_mem_head? h

theorem insert_perm (h : m.get? k = none) (v : α) :
    (m.insert k v).entries.Perm ((k, v) :: m.entries) := by
  have hne : ∀ e ∈ m.entries, e.1 ≠ k := by
    intro e he hk
    have hget := get?_of_mem (k := e.1) (v := e.2) he
    rw [hk, h] at hget
    cases hget
  have hp (es : List (κ × α)) (hes : ∀ e ∈ es, e.1 ≠ k) : (insertEntry k v es).Perm
      ((k, v) :: es) := by
    induction es with
    | nil => exact .refl _
    | cons e es ih =>
      rw [insertEntry]
      split
      · exact .refl _
      · rw [if_neg fun hk => hes e mem_cons_self hk.symm]
        exact ((ih fun x hx => hes x (mem_cons_of_mem _ hx)).cons e).trans (.swap _ _ _)
  exact hp m.entries hne

section
variable (hs : m.entries = pre ++ (k, v) :: after) (hb : ∀ e ∈ pre, e.1 ≠ k)
  (ha : ∀ e ∈ after, e.1 ≠ k)
include hs hb ha

theorem modify_split (f : α → α) : (m.modify k f).entries = pre ++ (k, f v) :: after := by
  have hmap (es : List (κ × α)) (hes : ∀ e ∈ es, e.1 ≠ k) :
      es.map (fun e => (e.1, if e.1 = k then f e.2 else e.2)) = es :=
    (map_congr_left fun e he => by simp [hes e he]).trans (map_id es)
  change m.entries.map _ = _
  rw [hs, map_append, map_cons, hmap pre hb, hmap after ha, if_pos rfl]

theorem erase_split : (m.erase k).entries = pre ++ after := by
  have hf (es : List (κ × α)) (hes : ∀ e ∈ es, e.1 ≠ k) : es.filter
      (fun e => decide (e.1 ≠ k)) = es :=
    filter_eq_self.mpr fun e he => decide_eq_true (hes e he)
  change m.entries.filter _ = _
  rw [hs, filter_append, filter_cons_of_neg (by simp), hf pre hb, hf after ha]

end

theorem erase_first (h : m.first? = some (k, v)) : (m.erase k).entries = m.entries.tail := by
  obtain ⟨rest, hr⟩ := head?_eq_some_iff.mp h
  have hs := m.sorted
  rw [hr, pairwise_cons] at hs
  have hsp : m.entries = [] ++ (k, v) :: rest := hr
  rw [erase_split hsp (by simp) fun e he => ne_of_gt (hs.1 e he), hr]
  rfl

theorem insert_last (h : ∀ e ∈ m.entries, e.1 < k) :
    (m.insert k v).entries = m.entries ++ [(k, v)] := by
  have hl (es : List (κ × α)) (hes : ∀ e ∈ es, e.1 < k) : insertEntry k v es = es ++ [(k, v)] := by
    induction es with
    | nil => rfl
    | cons e es ih =>
      have hlt := hes e mem_cons_self
      rw [insertEntry, if_neg (not_lt_of_gt hlt), if_neg (ne_of_gt hlt),
        ih fun x hx => hes x (mem_cons_of_mem _ hx), cons_append]
  exact hl m.entries h

def ofList (key : α → κ) (l : List α) : OrderedMap κ α :=
  l.foldl (fun m x => m.insert (key x) x) empty

theorem ofList_concat (key : α → κ) (l : List α) (x : α) :
    ofList key (l ++ [x]) = (ofList key l).insert (key x) x := by
  rw [ofList, foldl_append]
  rfl

theorem mem_ofList {key : α → κ} (h : e ∈ (ofList key l).entries) : e.2 ∈ l ∧ key e.2 = e.1 := by
  induction l using reverseRecOn with
  | nil => cases h
  | append_singleton l x ih =>
    rw [ofList_concat, mem_insert] at h
    rcases h with rfl | ⟨hmem, -⟩
    · exact ⟨mem_append_right _ mem_cons_self, rfl⟩
    · exact ⟨mem_append_left _ (ih hmem).1, (ih hmem).2⟩

theorem exists_last_of_ofList (key : α → κ) {i : Nat} {x : α} (h : l[i]? = some x) :
    ∃ j y, i ≤ j ∧ l[j]? = some y ∧ key y = key x ∧ (key x, y) ∈ (ofList key l).entries := by
  induction l using reverseRecOn with
  | nil => cases h
  | append_singleton l z ih =>
    rw [ofList_concat]
    have hz : (l ++ [z])[l.length]? = some z := List.getElem?_concat_length
    have hi := (List.getElem?_eq_some_iff.mp h).1
    rw [List.length_append, List.length_singleton] at hi
    by_cases hkey : key z = key x
    · exact ⟨l.length, z, by omega, hz, hkey, mem_insert.mpr (.inl (by rw [hkey]))⟩
    · have hlt : i < l.length := by
        by_contra hge
        obtain rfl : i = l.length := by omega
        exact hkey (congrArg key (Option.some.inj (hz.symm.trans h)))
      rw [getElem?_append_left hlt] at h
      obtain ⟨j, y, hij, hy, hyx, hmem⟩ := ih h
      have hj := (List.getElem?_eq_some_iff.mp hy).1
      exact ⟨j, y,
        hij, by rw [List.getElem?_append_left hj, hy], hyx, mem_insert.mpr (.inr ⟨hmem, Ne.symm hkey⟩)⟩

end OrderedMap
