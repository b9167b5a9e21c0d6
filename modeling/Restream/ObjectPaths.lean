import Mathlib.Data.List.Infix

/-! Object paths below a stream key: what an upload and a listed URI are taken for. -/

namespace Restream.Hls

open List Option

def isControl (c : Char) : Bool := c.toNat < 0x20 || (0x7F ≤ c.toNat && c.toNat ≤ 0x9F)

def pushPart (parts : List (List Char)) (part : List Char) : Option (List (List Char)) :=
  if part = [] ∨ part = ['.'] then some parts
  else if part = ['.', '.'] then if parts = [] then none else some parts.dropLast
  else some (parts ++ [part])

def normalizePath (path : String) : Option String :=
  if path.toList.any fun c => c = '\\' || isControl c then none
  else
    ((path.toList.splitOn '/').foldlM pushPart []).bind fun parts =>
      if parts = [] then none else some (String.ofList (['/'].intercalate parts))

def cutUri (uri : String) : List Char := uri.toList.takeWhile fun c => c ≠ '?' && c ≠ '#'

def resolveUri (playlistPath uri : String) : Option String :=
  if cutUri uri = [] ∨ "://".toList <:+: cutUri uri ∨ (cutUri uri).head? = some '/' then none
  else
    let directory := (playlistPath.toList.reverse.dropWhile (· ≠ '/')).tail.reverse
    normalizePath (String.ofList (directory ++ '/' :: cutUri uri))

def components (path : String) : List (List Char) := path.toList.splitOn '/'

def isOrdinary (part : List Char) : Bool := part ≠ [] && part ≠ ['.'] && part ≠ ['.', '.']

def ordinary (parts : List (List Char)) : Nat := parts.countP isOrdinary

def climbs (parts : List (List Char)) : Nat := parts.countP (· = ['.', '.'])

/-- A bad character, a climb above the stream key, or no component left. -/
def Refused (path : String) : Prop :=
  (∃ c ∈ path.toList, c = '\\' ∨ isControl c = true) ∨
    (∃ pre, pre <+: components path ∧ ordinary pre < climbs pre) ∨
    ordinary (components path) = climbs (components path)

/-- A path that names something below the stream key and nothing else. -/
structure Confined (path : String) : Prop where
  nonempty : path ≠ ""
  start : path.toList.head? ≠ some '/'
  stop : path.toList.getLast? ≠ some '/'
  parts : ∀ part ∈ components path, isOrdinary part = true
  normal : normalizePath path = some path

/-- The object paths of a session: those of uploads, and those that a playlist lists. -/
inductive Used : String → Prop
  | upload {path object : String} (h : normalizePath path = some object) : Used object
  | listed {playlist uri object : String} (hp : Used playlist)
    (h : resolveUri playlist uri = some object) : Used object

variable {parts comps out : List (List Char)} {part : List Char} {path object : String}

theorem mem_splitOn {a c : Char} {text : List Char} :
    (∃ part ∈ text.splitOn a, c ∈ part) ↔ c ∈ text ∧ c ≠ a := by
  induction text with
  | nil => simp
  | cons x text ih =>
    rw [splitOn_cons_eq_if_modifyHead]
    split
    · next hx =>
      grind
    · next hx =>
      cases hs : text.splitOn a with
      | nil => exact absurd hs (splitOn_ne_nil a text)
      | cons head tail =>
        rw [modifyHead_cons, List.exists_mem_cons_iff]
        grind

theorem pushPart_cases (parts : List (List Char)) (part : List Char) :
    (pushPart parts part = none ∧ parts = [] ∧ isOrdinary part = false ∧ part = ['.', '.']) ∨
    ∃ next, pushPart parts part = some next ∧
      (∀ p ∈ next, p ∈ parts ∨ p = part ∧ isOrdinary part = true) ∧
      next.length + climbs [part] = parts.length + ordinary [part] := by
  unfold pushPart
  by_cases hs : part = [] ∨ part = ['.']
  · rw [if_pos hs]
    refine .inr ⟨parts, rfl, fun p hp => .inl hp, ?_⟩
    rcases hs with rfl | rfl <;> rfl
  · rw [if_neg hs]
    by_cases hu : part = ['.', '.']
    · subst hu
      cases parts with
      | nil => exact .inl ⟨rfl, rfl, rfl, rfl⟩
      | cons p parts =>
        refine .inr ⟨_, rfl, fun q hq => .inl (dropLast_subset _ hq), ?_⟩
        rw [length_dropLast]
        rfl
    · rw [if_neg hu]
      have ho : isOrdinary part = true := by
        rw [not_or] at hs
        simp [isOrdinary, hs, hu]
      refine .inr ⟨_, rfl, fun p hp => ?_, by simp [climbs, ordinary, ho, hu]⟩
      rcases mem_append.mp hp with hp | hp
      · exact .inl hp
      · exact .inr ⟨mem_singleton.mp hp, ho⟩

theorem foldlM_some (h : comps.foldlM pushPart parts = some out) :
    out.length + climbs comps = parts.length + ordinary comps ∧
      (∀ pre, pre <+: comps → climbs pre ≤ parts.length + ordinary pre) ∧
      ∀ p ∈ out, p ∈ parts ∨ p ∈ comps ∧ isOrdinary p = true := by
  induction comps generalizing parts with
  | nil =>
    cases h
    exact ⟨rfl, fun pre hp => by rw [prefix_nil.mp hp]; exact Nat.zero_le _, fun p hp => .inl hp⟩
  | cons part comps ih =>
    rw [foldlM_cons] at h
    rcases pushPart_cases parts part with ⟨hn, -⟩ | ⟨next, hn, hm, hl⟩ <;> rw [hn] at h
    · cases h
    · obtain ⟨hlen, hpre, hout⟩ := ih h
      simp only [climbs, ordinary, countP_cons, countP_nil] at hl hlen hpre ⊢
      refine ⟨by omega, fun pre hp => ?_, fun p hp => ?_⟩
      · rcases prefix_cons_iff.mp hp with rfl | ⟨pre, rfl, hp'⟩
        · exact Nat.zero_le _
        · have hle := hpre pre hp'
          simp only [countP_cons]
          omega
      · rcases hout p hp with hp | ⟨hp, ho⟩
        · rcases hm p hp with hp | ⟨rfl, ho⟩
          · exact .inl hp
          · exact .inr ⟨mem_cons_self, ho⟩
        · exact .inr ⟨mem_cons_of_mem _ hp, ho⟩

theorem foldlM_none (h : comps.foldlM pushPart parts = none) :
    ∃ pre, pre <+: comps ∧ parts.length + ordinary pre < climbs pre := by
  induction comps generalizing parts with
  | nil => cases h
  | cons part comps ih =>
    rw [foldlM_cons] at h
    rcases pushPart_cases parts part with ⟨hn, rfl, ho, rfl⟩ | ⟨next, hn, -, hl⟩
    · exact ⟨[['.', '.']], prefix_append [_] comps, by decide⟩
    · rw [hn] at h
      obtain ⟨pre, hp, hlt⟩ := ih h
      refine ⟨part :: pre, (prefix_cons_inj part).mpr hp, ?_⟩
      simp only [climbs, ordinary, countP_cons, countP_nil] at hl hlt ⊢
      omega

theorem foldlM_ordinary (h : ∀ p ∈ comps, isOrdinary p = true) :
    comps.foldlM pushPart parts = some (parts ++ comps) := by
  induction comps generalizing parts with
  | nil => rw [append_nil]; rfl
  | cons part comps ih =>
    have hp := h part mem_cons_self
    simp only [isOrdinary, Bool.and_eq_true, decide_eq_true_eq] at hp
    rw [foldlM_cons, pushPart, if_neg (by simp [hp]), if_neg hp.2]
    exact (ih fun p hp => h p (mem_cons_of_mem _ hp)).trans (by simp)

theorem confined_of_normalizePath (h : normalizePath path = some object) : Confined object := by
  obtain ⟨hclean, h⟩ := ite_none_left_eq_some.mp h
  obtain ⟨out, hout, h⟩ := bind_eq_some_iff.mp h
  obtain ⟨hne, h⟩ := ite_none_left_eq_some.mp h
  obtain rfl := Option.some.inj h
  obtain ⟨-, -, hmem⟩ := foldlM_some hout
  have hord : ∀ p ∈ out, p ∈ components path ∧ isOrdinary p = true := fun p hp =>
    (hmem p hp).resolve_left (by simp)
  generalize hq : String.ofList (['/'].intercalate out) = q
  have hsplit : components q = out := by
    rw [components, ← hq, String.toList_ofList]
    exact splitOn_intercalate '/' (fun p hp hs => (mem_splitOn.mp ⟨p, (hord p hp).1, hs⟩).2 rfl) hne
  have hparts : ∀ p ∈ components q, isOrdinary p = true := by
    rw [hsplit]
    exact fun p hp => (hord p hp).2
  have hnil : [] ∉ components q := fun h => by cases hparts _ h
  refine ⟨?_, ?_, ?_, hparts, ?_⟩
  · intro he
    rw [he] at hnil
    exact hnil (by decide)
  · intro hs
    obtain ⟨rest, hr⟩ := head?_eq_some_iff.mp hs
    refine hnil ?_
    rw [components, hr]
    exact mem_cons_self
  · intro hs
    obtain ⟨rest, hr⟩ := getLast?_eq_some_iff.mp hs
    refine hnil ?_
    rw [components, hr, splitOn_append_cons_self]
    exact mem_append_right _ mem_cons_self
  · have hchars : ¬q.toList.any (fun c => c = '\\' || isControl c) = true := by
      rw [List.any_eq_true]
      rintro ⟨c, hc, hbad⟩
      have hslash : c ≠ '/' := by
        rintro rfl
        cases hbad
      obtain ⟨p, hp, hcp⟩ := mem_splitOn.mpr ⟨hc, hslash⟩
      rw [← components, hsplit] at hp
      exact hclean (List.any_eq_true.mpr ⟨c, (mem_splitOn.mp ⟨p, (hord p hp).1, hcp⟩).1, hbad⟩)
    have hfold : (components q).foldlM pushPart [] = _ := foldlM_ordinary hparts
    rw [normalizePath, if_neg hchars]
    rw [hsplit, nil_append] at hfold
    rw [components] at hsplit
    rw [hsplit, hfold, bind_some, if_neg hne, hq]

theorem normalizePath_eq_none : normalizePath path = none ↔ Refused path := by
  unfold normalizePath Refused
  split
  · next h => exact iff_of_true rfl (.inl (by simpa using h))
  · next h =>
    have hclean : ¬∃ c ∈ path.toList, c = '\\' ∨ isControl c = true := by simpa using h
    rw [or_iff_right hclean]
    change ((components path).foldlM pushPart []).bind _ = none ↔ _
    cases hf : (components path).foldlM pushPart [] with
    | none =>
      obtain ⟨pre, hp, hlt⟩ := foldlM_none hf
      exact iff_of_true rfl (.inl ⟨pre, hp, by simpa using hlt⟩)
    | some out =>
      obtain ⟨hlen, hpre, -⟩ := foldlM_some hf
      have hno : ¬∃ pre, pre <+: components path ∧ ordinary pre < climbs pre := by
        rintro ⟨pre, hp, hlt⟩
        have := hpre pre hp
        simp only [length_nil] at this
        omega
      rw [or_iff_right hno, bind_some, ite_eq_left_iff, ← length_eq_zero_iff]
      simp only [length_nil] at hlen
      constructor
      · intro h
        by_contra hne
        cases h (by omega)
      · exact fun heq h => absurd (by omega) h

/-- What is accepted is confined to the stream key, and all else is refused. -/
theorem paths_confined :
    (∀ path, normalizePath path = none ↔ Refused path) ∧
    (∀ path object, normalizePath path = some object → Confined object) ∧
    (∀ playlist uri object, resolveUri playlist uri = some object → Confined object ∧
      (cutUri uri).head? ≠ some '/' ∧ ¬"://".toList <:+: cutUri uri) ∧
    ∀ object, Used object → Confined object := by
  have hresolve (playlist uri object : String) (h : resolveUri playlist uri = some object) :
      Confined object ∧ (cutUri uri).head? ≠ some '/' ∧ ¬"://".toList <:+: cutUri uri := by
    obtain ⟨hn, h⟩ := ite_none_left_eq_some.mp h
    rw [not_or, not_or] at hn
    exact ⟨confined_of_normalizePath h, hn.2.2, hn.2.1⟩
  refine ⟨fun _ => normalizePath_eq_none, fun _ _ => confined_of_normalizePath, hresolve,
    fun object h => ?_⟩
  cases h with
  | upload h => exact confined_of_normalizePath h
  | listed hp h => exact (hresolve _ _ _ h).1

end Restream.Hls
