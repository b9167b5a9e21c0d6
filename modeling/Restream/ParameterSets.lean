import Mathlib.Tactic.MkIffOfInductiveProp
import Restream.RtmpEncoder

/-! Which parameter sets of an access unit end up in the sequence header built
from what the accumulator records of it. -/

namespace Restream.Codec

open List Option AnnexbParameterSetAccumulator UInt8

def hasStartCode : List UInt8 → Bool
  | a :: b :: c :: rest => (a = 0 ∧ b = 0 ∧ c = 1) || hasStartCode (b :: c :: rest)
  | _ => false

variable {a : UInt8} {n : Nalu}

theorem hasStartCode_cons (h : hasStartCode (a :: l) = false) : hasStartCode l = false := by
  rcases l with - | ⟨b, - | ⟨c, rest⟩⟩
  · rfl
  · rfl
  · simp only [hasStartCode, Bool.or_eq_false_iff] at h
    exact h.2

theorem hasStartCode_append_left (h : hasStartCode (l ++ m) = false) : hasStartCode l = false := by
  induction l with
  | nil => rfl
  | cons a l ih =>
    have ht := ih (hasStartCode_cons h)
    rcases l with - | ⟨b, - | ⟨c, rest⟩⟩
    · rfl
    · rfl
    · simp only [cons_append, hasStartCode, Bool.or_eq_false_iff] at h ⊢
      exact ⟨h.1, ht⟩

theorem hasStartCode_concat (h : hasStartCode (l ++ [a, b]) = false)
    (hne : ¬(a = 0 ∧ b = 0 ∧ c = 1)) : hasStartCode (l ++ [a, b, c]) = false := by
  induction l with
  | nil => simpa [hasStartCode] using hne
  | cons x l ih =>
    have ht := ih (hasStartCode_cons h)
    rcases l with - | ⟨y, - | ⟨z, rest⟩⟩ <;>
      simp only [cons_append, nil_append, hasStartCode, Bool.or_eq_false_iff] at h ht ⊢ <;>
      exact ⟨h.1, ht⟩

theorem dropTrailingZeros_isPrefix (n : Nalu) : dropTrailingZeros n <+: n := rdropWhile_prefix _ _

theorem dropTrailingZeros_concat_zero : dropTrailingZeros (n ++ [0]) = dropTrailingZeros n :=
  rdropWhile_concat_pos _ _ _ rfl

theorem mem_closeNalu : n ∈ closeNalu cur ↔ cur = some n ∧ n ≠ [] := by
  cases cur with
  | none => simp [closeNalu]
  | some m =>
    by_cases hm : m = []
    · simp only [closeNalu, hm, isEmpty_nil, if_true, not_mem_nil, Option.some.injEq, false_iff]
      rintro ⟨rfl, h⟩
      exact h rfl
    · simp only [closeNalu, List.isEmpty_iff, hm, if_false, List.mem_singleton, Option.some.injEq]
      constructor
      · rintro rfl
        exact ⟨rfl, hm⟩
      · rintro ⟨rfl, -⟩
        rfl

structure IsUnit (n : Nalu) : Prop where
  nonempty : n ≠ []
  clean : hasStartCode n = false

theorem scanNalus_isUnit (current : Option Nalu) (data : List UInt8)
    (h : ∀ cur ∈ current, hasStartCode (cur ++ data.take 2) = false) :
    ∀ n ∈ scanNalus current data, IsUnit n := by
  induction current, data using scanNalus.induct with
  | case1 current a b c rest hco ih =>
    intro n hn
    rw [scanNalus, if_pos hco] at hn
    rcases mem_append.mp hn with hn | hn
    · obtain ⟨hmap, hne⟩ := mem_closeNalu.mp hn
      obtain ⟨cur, hcur, rfl⟩ := map_eq_some_iff.mp hmap
      obtain ⟨zeros, hz⟩ := dropTrailingZeros_isPrefix cur
      have hc := hasStartCode_append_left (h cur hcur)
      rw [← hz] at hc
      exact ⟨hne, hasStartCode_append_left hc⟩
    · refine ih ?_ n hn
      rintro _ ⟨⟩
      rcases rest with - | ⟨x, - | ⟨y, rest⟩⟩ <;> rfl
  | case2 current a b c rest hco ih =>
    rw [scanNalus, if_neg hco]
    apply ih
    intro cur hcur
    obtain ⟨cur', hcur', rfl⟩ := map_eq_some_iff.mp hcur
    have hc := h cur' hcur'
    simp only [take_succ_cons, take_zero, append_assoc, singleton_append] at hc ⊢
    exact hasStartCode_concat hc hco
  | case3 current tail hs =>
    intro n hn
    rw [scanNalus] at hn
    · obtain ⟨hmap, hne⟩ := mem_closeNalu.mp hn
      obtain ⟨cur, hcur, rfl⟩ := map_eq_some_iff.mp hmap
      have hc := h cur hcur
      have ht : tail.take 2 = tail := by
        rcases tail with - | ⟨x, - | ⟨y, - | ⟨z, rest⟩⟩⟩
        · rfl
        · rfl
        · rfl
        · exact (hs x y z rest rfl).elim
      rw [ht] at hc
      exact ⟨hne, hc⟩
    · exact hs

theorem splitAnnexbNalus_isUnit (h : n ∈ splitAnnexbNalus data) : IsUnit n :=
  scanNalus_isUnit none data (by rintro _ ⟨⟩) n h

theorem hasStartCode_append_zeros (h : hasStartCode n = false) (count : Nat) :
    hasStartCode (n ++ replicate count 0) = false := by
  induction count with
  | zero => simpa using h
  | succ count ih =>
    rw [replicate_succ', ← append_assoc]
    generalize n ++ replicate count 0 = m at ih
    rcases m.eq_nil_or_concat with rfl | ⟨l, b, rfl⟩
    · rfl
    · rcases l.eq_nil_or_concat with rfl | ⟨k, a, rfl⟩
      · rfl
      · simp only [concat_eq_append, append_assoc, cons_append, nil_append] at ih ⊢
        exact hasStartCode_concat ih (by simp)

theorem scanNalus_cons (h : hasStartCode (x :: n) = false) (cur : Option Nalu)
    (hrest : rest = [] ∨ ∃ tail, rest = 0 :: 0 :: tail) :
    scanNalus cur (x :: (n ++ rest)) = scanNalus (cur.map (· ++ [x])) (n ++ rest) := by
  rcases n with - | ⟨y, - | ⟨z, n⟩⟩
  · rcases hrest with rfl | ⟨tail, rfl⟩ <;> simp [scanNalus, Function.comp_def]
  · rcases hrest with rfl | ⟨tail, rfl⟩ <;> simp [scanNalus, Function.comp_def]
  · simp only [hasStartCode, Bool.or_eq_false_iff, decide_eq_false_iff_not] at h
    simp only [cons_append, scanNalus, h.1, if_false]

theorem scanNalus_code (h : hasStartCode n = false) (cur : Option Nalu) (rest : List UInt8) :
    scanNalus cur (n ++ 0 :: 0 :: 1 :: rest) =
      closeNalu (cur.map fun begun => dropTrailingZeros (begun ++ n)) ++
        scanNalus (some []) rest := by
  induction n generalizing cur with
  | nil =>
    rw [nil_append, scanNalus]
    cases cur <;> simp
  | cons x n ih =>
    rw [cons_append, scanNalus_cons h cur (.inr ⟨_, rfl⟩), ih (hasStartCode_cons h)]
    cases cur <;> simp

theorem scanNalus_last (h : hasStartCode n = false) (cur : Option Nalu) :
    scanNalus cur n = closeNalu (cur.map (· ++ n)) := by
  induction n generalizing cur with
  | nil => cases cur <;> simp [scanNalus]
  | cons x n ih =>
    have hc := scanNalus_cons h cur (.inl rfl)
    rw [append_nil, ih (hasStartCode_cons h)] at hc
    rw [hc]
    cases cur <;> simp

section Accumulator

def isBaseSet (n : Nalu) : Bool :=
  baseLayerNalType n = 32 || baseLayerNalType n = 33 || baseLayerNalType n = 34

def isAvcSet (n : Nalu) : Bool := h264NalType n = some 7 || h264NalType n = some 8

def lastSet (p : Nalu → Bool) (nalus : List Nalu) : Option (List UInt8) :=
  (nalus.filter p).getLast?.map annexbNalu

theorem lastSet_append :
    lastSet p (nalus ++ [n]) = if p n then some (annexbNalu n) else lastSet p nalus := by
  unfold lastSet
  by_cases h : p n = true <;> simp [h, filter_append]

variable {nalus : List Nalu}

theorem lastSet_eq_none (h : ∀ n ∈ nalus, p n = false) : lastSet p nalus = none := by
  have hnil : nalus.filter p = [] := by
    rw [filter_eq_nil_iff]
    intro n hn
    simp [h n hn]
  simp [lastSet, hnil]

section

variable {q : Nalu → Prop} [DecidablePred q]

theorem mem_of_lastSet (h : lastSet (q ·) nalus = some x) : ∃ n ∈ nalus, q n ∧ x = annexbNalu n := by
  obtain ⟨n, hn, rfl⟩ := map_eq_some_iff.mp h
  have hmem := mem_filter.mp (mem_of_getLast? hn)
  exact ⟨n, hmem.1, of_decide_eq_true hmem.2, rfl⟩

theorem lastSet_of_mem (h : ∃ n ∈ nalus, q n) : ∃ x, lastSet (q ·) nalus = some x := by
  obtain ⟨n, hn, hq⟩ := h
  have hne : nalus.filter (q ·) ≠ [] := ne_nil_of_mem (mem_filter.mpr ⟨hn, decide_eq_true hq⟩)
  exact ⟨_, by rw [lastSet, getLast?_eq_some_getLast hne, map_some]⟩

end

/-- The last parameter set of each type; one H.265 set makes the accumulator
forget, and then overlook, those of H.264. -/
def accumulated (nalus : List Nalu) : AnnexbParameterSetAccumulator :=
  if nalus.any isBaseSet then
    { kind := .h265
      h264Sps := none
      h264Pps := none
      h265Vps := lastSet (baseLayerNalType · = 32) nalus
      h265Sps := lastSet (baseLayerNalType · = 33) nalus
      h265Pps := lastSet (baseLayerNalType · = 34) nalus }
  else
    { kind := if nalus.any isAvcSet then .h264 else .unknown
      h264Sps := lastSet (h264NalType · = some 7) nalus
      h264Pps := lastSet (h264NalType · = some 8) nalus
      h265Vps := none
      h265Sps := none
      h265Pps := none }

theorem pushNalu_accumulated (nalus : List Nalu) (n : Nalu) :
    (accumulated nalus).pushNalu n = accumulated (nalus ++ [n]) := by
  simp only [accumulated, lastSet_append, any_append, any_cons, any_nil, Bool.or_false,
    pushNalu, switchKind]
  by_cases hb : nalus.any isBaseSet = true
  · simp only [hb, if_true, Bool.true_or]
    by_cases h32 : baseLayerNalType n = 32
    · simp [h32]
    by_cases h33 : baseLayerNalType n = 33
    · simp [h33]
    by_cases h34 : baseLayerNalType n = 34
    · simp [h34]
    simp [h32, h33, h34]
  have hno : ∀ m ∈ nalus, baseLayerNalType m ≠ 32 ∧ baseLayerNalType m ≠ 33 ∧
      baseLayerNalType m ≠ 34 := by
    intro m hm
    have hba : ¬isBaseSet m = true := fun h => hb (any_eq_true.mpr ⟨m, hm, h⟩)
    simpa [isBaseSet, and_assoc] using hba
  have h32 : lastSet (baseLayerNalType · = 32) nalus = none :=
    lastSet_eq_none fun m hm => by simp [hno m hm]
  have h33 : lastSet (baseLayerNalType · = 33) nalus = none :=
    lastSet_eq_none fun m hm => by simp [hno m hm]
  have h34 : lastSet (baseLayerNalType · = 34) nalus = none :=
    lastSet_eq_none fun m hm => by simp [hno m hm]
  simp only [hb, h32, h33, h34, Bool.false_or, AnnexbParameterSetAccumulator.empty]
  have hk : lastSet (h264NalType · = some 7) nalus = none ∧
      lastSet (h264NalType · = some 8) nalus = none ∨ nalus.any isAvcSet = true := by
    by_cases hm : nalus.any isAvcSet = true
    · exact .inr hm
    · have havc : ∀ m ∈ nalus, h264NalType m ≠ some 7 ∧ h264NalType m ≠ some 8 := by
        intro m hmem
        have hset : ¬isAvcSet m = true := fun h => hm (any_eq_true.mpr ⟨m, hmem, h⟩)
        simpa [isAvcSet] using hset
      exact .inl ⟨lastSet_eq_none fun m hmem => by simp [havc m hmem],
        lastSet_eq_none fun m hmem => by simp [havc m hmem]⟩
  generalize nalus.any isAvcSet = avc at hk ⊢
  by_cases hn : isBaseSet n = true
  · simp only [isBaseSet, Bool.or_eq_true, decide_eq_true_eq] at hn
    cases avc <;> simp only [Bool.false_eq_true, or_false, or_true] at hk <;>
      rcases hn with (hn | hn) | hn <;> simp [isBaseSet, hn, hk]
  · have hba : baseLayerNalType n ≠ 32 ∧ baseLayerNalType n ≠ 33 ∧ baseLayerNalType n ≠ 34 := by
      simpa [isBaseSet, and_assoc] using hn
    by_cases h7 : h264NalType n = some 7
    · cases avc <;> simp [hn, hba, h7, isAvcSet]
    by_cases h8 : h264NalType n = some 8
    · cases avc <;> simp [hn, hba, h8, isAvcSet]
    cases avc <;> simp [hn, hba, h7, h8, isAvcSet]

theorem accumulate_eq : nalus.foldl pushNalu (.empty .unknown) = accumulated nalus := by
  induction nalus using reverseRecOn with
  | nil => rfl
  | append_singleton nalus n ih =>
    rw [foldl_append, ih]
    exact pushNalu_accumulated nalus n

end Accumulator

section Types

theorem toNat_and_h264 (b : UInt8) : (b &&& 0x1F).toNat = b.toNat % 32 := by
  exact Nat.and_two_pow_sub_one_eq_mod b.toNat 5

theorem toNat_and_h265 (b : UInt8) : ((b >>> 1) &&& 0x3F).toNat = b.toNat / 2 % 64 := by
  exact Nat.and_two_pow_sub_one_eq_mod (b.toNat / 2) 6

theorem dropTrailingZeros_append_cons (hx : x ≠ 0) (l m : Nalu) :
    dropTrailingZeros (l ++ x :: m) = l ++ x :: dropTrailingZeros m := by
  induction m using reverseRecOn with
  | nil => exact rdropWhile_concat_neg _ _ _ (by simpa using hx)
  | append_singleton m y ih =>
    unfold dropTrailingZeros at ih ⊢
    rw [← cons_append, ← append_assoc, rdropWhile_concat, rdropWhile_concat, ih]
    split <;> simp

variable {n : Nalu} {t : UInt8}

theorem h264NalType_strip (h : h264NalType n = some t) (ht : t ≠ 0) :
    h264NalType (dropTrailingZeros n) = some t := by
  cases n with
  | nil => cases h
  | cons first rest =>
    cases h
    have hf : first ≠ 0 := by
      rintro rfl
      exact ht rfl
    have hs := dropTrailingZeros_append_cons hf [] rest
    rw [nil_append, nil_append] at hs
    rw [hs, h264NalType]

theorem baseLayerNalType_strip (h : baseLayerNalType n = t) (ht : t ≠ 0) :
    baseLayerNalType (dropTrailingZeros n) = t := by
  rcases n with - | ⟨first, - | ⟨second, rest⟩⟩
  · exact absurd h.symm ht
  · exact absurd h.symm ht
  · have hse : second ≠ 0 := by
      rintro rfl
      exact ht (h.symm.trans (if_neg (fun hb => absurd hb.2.1 (by decide))))
    have hs := dropTrailingZeros_append_cons hse [first] rest
    rw [singleton_append] at hs
    rw [hs]
    exact h

theorem h265NalType_of_base (h : baseLayerNalType n = t) (ht : t ≠ 0) : h265NalType n = some t := by
  rcases n with - | ⟨first, - | ⟨second, rest⟩⟩
  · exact absurd h.symm ht
  · exact absurd h.symm ht
  · simp only [baseLayerNalType] at h
    split at h
    · exact congrArg some h
    · exact absurd h.symm ht

theorem baseLayerNalType_eq (h : baseLayerNalType n = t) (ht : t ≠ 0) :
    h265NalType n = some t ∧ h265NalType (dropTrailingZeros n) = some t :=
  ⟨h265NalType_of_base h ht, h265NalType_of_base (baseLayerNalType_strip h ht) ht⟩

theorem nalTypes_toNat (h4 : h264NalType n = some s) (h5 : h265NalType n = some t) :
    ∃ first, s.toNat = first % 32 ∧ t.toNat = first / 2 % 64 := by
  rcases n with - | ⟨first, - | ⟨second, rest⟩⟩
  · cases h4
  · cases h5
  · cases h4
    cases h5
    exact ⟨first.toNat, toNat_and_h264 _, toNat_and_h265 _⟩

theorem h264NalType_of_h265 (h : h265NalType n = some t) (ht : t = 32 ∨ t = 33 ∨ t = 34) :
    h264NalType n ≠ some 7 := by
  intro h7
  obtain ⟨first, h4, h5⟩ := nalTypes_toNat h7 h
  rcases ht with rfl | rfl | rfl <;> simp only [reduceToNat] at h4 h5 <;> omega

theorem h265NalType_of_h264 (h : h264NalType n = some t) (ht : t = 7 ∨ t = 8) :
    h265NalType n ≠ some 32 := by
  intro h32
  obtain ⟨first, h4, h5⟩ := nalTypes_toNat h h32
  rcases ht with rfl | rfl <;> simp only [reduceToNat] at h4 h5 <;> omega

end Types

section Split

variable {a b c : Nalu}

theorem closeNalu_some (h : a ≠ []) : closeNalu (some a) = [a] := by
  simp [closeNalu, h]

theorem splitAnnexbNalus_annexbNalu :
    splitAnnexbNalus (annexbNalu rest) = scanNalus (some []) rest := by
  simp [splitAnnexbNalus, annexbNalu, scanNalus, closeNalu]

variable (ha : IsUnit a)
include ha

theorem scanNalus_next (hs : dropTrailingZeros a ≠ []) :
    scanNalus (some []) (a ++ annexbNalu rest) = dropTrailingZeros a :: scanNalus (some []) rest := by
  have h := scanNalus_code (hasStartCode_append_zeros ha.clean 1) (some []) rest
  simpa [annexbNalu, dropTrailingZeros_concat_zero, closeNalu_some hs] using h

theorem scanNalus_unit : scanNalus (some []) a = [a] := by
  rw [scanNalus_last ha.clean, map_some, nil_append, closeNalu_some ha.nonempty]

theorem split_pair (hs : dropTrailingZeros a ≠ []) (hb : IsUnit b) :
    splitAnnexbNalus (annexbNalu a ++ annexbNalu b) = [dropTrailingZeros a, b] := by
  have hap : annexbNalu a ++ annexbNalu b = annexbNalu (a ++ annexbNalu b) := by simp [annexbNalu]
  rw [hap, splitAnnexbNalus_annexbNalu, scanNalus_next ha hs, scanNalus_unit hb]

theorem split_triple (hsa : dropTrailingZeros a ≠ []) (hb : IsUnit b)
    (hsb : dropTrailingZeros b ≠ []) (hc : IsUnit c) :
    splitAnnexbNalus (annexbNalu a ++ annexbNalu b ++ annexbNalu c) =
      [dropTrailingZeros a, dropTrailingZeros b, c] := by
  have hap : annexbNalu a ++ annexbNalu b ++ annexbNalu c =
      annexbNalu (a ++ annexbNalu (b ++ annexbNalu c)) := by simp [annexbNalu]
  rw [hap, splitAnnexbNalus_annexbNalu, scanNalus_next ha hsa,
    scanNalus_next hb hsb, scanNalus_unit hc]

end Split

section Recorded

/-- What is recorded of an access unit: a VPS, SPS and PPS of H.265, or an SPS
and PPS of H.264. -/
inductive Records (nalus : List Nalu) : List UInt8 → Prop
  | h265 {vps sps pps : Nalu} (hvps : vps ∈ nalus) (hsps : sps ∈ nalus) (hpps : pps ∈ nalus)
      (tvps : baseLayerNalType vps = 32) (tsps : baseLayerNalType sps = 33)
      (tpps : baseLayerNalType pps = 34) :
      Records nalus (annexbNalu vps ++ annexbNalu sps ++ annexbNalu pps)
  | h264 {sps pps : Nalu} (hsps : sps ∈ nalus) (hpps : pps ∈ nalus)
      (tsps : h264NalType sps = some 7) (tpps : h264NalType pps = some 8)
      (hnone : ∀ n ∈ nalus, isBaseSet n = false) :
      Records nalus (annexbNalu sps ++ annexbNalu pps)

theorem annexbParameterSets_records (h : annexbParameterSets pay = some bs) :
    Records (splitAnnexbNalus pay) bs := by
  rw [annexbParameterSets, accumulate_eq, accumulated] at h
  split at h
  · simp only [complete, Option.bind_eq_bind, Option.bind_eq_some_iff,
      Option.pure_def, Option.some.injEq] at h
    obtain ⟨_, hvps, _, hsps, _, hpps, rfl⟩ := h
    obtain ⟨vps, mvps, tvps, rfl⟩ := mem_of_lastSet hvps
    obtain ⟨sps, msps, tsps, rfl⟩ := mem_of_lastSet hsps
    obtain ⟨pps, mpps, tpps, rfl⟩ := mem_of_lastSet hpps
    exact .h265 mvps msps mpps tvps tsps tpps
  · next hany =>
    have hn : ∀ n ∈ splitAnnexbNalus pay, isBaseSet n = false := by simpa using hany
    simp only [complete] at h
    split at h
    · cases h
    · simp only [Option.bind_eq_bind, Option.bind_eq_some_iff,
        Option.pure_def, Option.some.injEq] at h
      obtain ⟨_, hsps, _, hpps, rfl⟩ := h
      obtain ⟨sps, msps, tsps, rfl⟩ := mem_of_lastSet hsps
      obtain ⟨pps, mpps, tpps, rfl⟩ := mem_of_lastSet hpps
      exact .h264 msps mpps tsps tpps hn
    · next hk =>
      split at hk <;> cases hk

theorem annexbParameterSets_h265 (hvps : ∃ n ∈ splitAnnexbNalus pay, baseLayerNalType n = 32)
    (hsps : ∃ n ∈ splitAnnexbNalus pay, baseLayerNalType n = 33)
    (hpps : ∃ n ∈ splitAnnexbNalus pay, baseLayerNalType n = 34) :
    ∃ sets, annexbParameterSets pay = some sets := by
  obtain ⟨v, hv⟩ := lastSet_of_mem hvps
  obtain ⟨s, hs⟩ := lastSet_of_mem hsps
  obtain ⟨p, hp⟩ := lastSet_of_mem hpps
  obtain ⟨vps, mvps, tvps⟩ := hvps
  have hany : (splitAnnexbNalus pay).any isBaseSet = true :=
    any_eq_true.mpr ⟨vps, mvps, by simp [isBaseSet, tvps]⟩
  rw [annexbParameterSets, accumulate_eq, accumulated, if_pos hany]
  simp [complete, hv, hs, hp]

theorem annexbParameterSets_ne_nil (h : annexbParameterSets pay = some bs) : bs ≠ [] := by
  cases annexbParameterSets_records h <;> simp [annexbNalu]

theorem annexbParameterSets_h264 (hn : ∀ n ∈ splitAnnexbNalus pay, isBaseSet n = false)
    (hsps : ∃ n ∈ splitAnnexbNalus pay, h264NalType n = some 7)
    (hpps : ∃ n ∈ splitAnnexbNalus pay, h264NalType n = some 8) :
    ∃ sets, annexbParameterSets pay = some sets := by
  obtain ⟨s, hs⟩ := lastSet_of_mem hsps
  obtain ⟨p, hp⟩ := lastSet_of_mem hpps
  obtain ⟨sps, msps, tsps⟩ := hsps
  have hb : ¬(splitAnnexbNalus pay).any isBaseSet = true := by
    simpa [List.any_eq_true] using hn
  have havc : (splitAnnexbNalus pay).any isAvcSet = true :=
    any_eq_true.mpr ⟨sps, msps, by simp [isAvcSet, tsps]⟩
  rw [annexbParameterSets, accumulate_eq, accumulated, if_neg hb, havc]
  simp [complete, hs, hp]

end Recorded

section Headers

variable {vps sps pps : Nalu}

theorem ne_nil_of_h264NalType (h : h264NalType n = some t) : n ≠ [] := by
  rintro rfl
  cases h

theorem ne_nil_of_h265NalType (h : h265NalType n = some t) : n ≠ [] := by
  rintro rfl
  cases h

section Avc

variable (hsps : IsUnit sps) (hpps : IsUnit pps) (tsps : h264NalType sps = some 7)
  (tpps : h264NalType pps = some 8)

include hsps hpps tsps tpps

theorem buildAvccRecord_pair : buildAvccRecord (annexbNalu sps ++ annexbNalu pps) =
      match dropTrailingZeros sps with
      | _ :: profile :: compatibility :: level :: _ =>
        if 65535 < (dropTrailingZeros sps).length ∨ 65535 < pps.length then none
        else some ([1, profile, compatibility, level, 0xFF, 0xE1] ++
          u16Prefixed (dropTrailingZeros sps) ++
          [1] ++ u16Prefixed pps)
      | _ => none := by
  have tstrip := h264NalType_strip tsps (by decide)
  unfold buildAvccRecord
  rw [split_pair hsps (ne_nil_of_h264NalType tstrip) hpps]
  generalize dropTrailingZeros sps = sps at tstrip
  have h7 : [sps, pps].filter (fun nalu => h264NalType nalu = some 7) = [sps] := by
    simp [tstrip, tpps]
  have h8 : [sps, pps].filter (fun nalu => h264NalType nalu = some 8) = [pps] := by
    simp [tstrip, tpps]
  simp only [h7, h8]
  rcases sps with - | ⟨first, - | ⟨profile, - | ⟨compatibility, - | ⟨level, rest⟩⟩⟩⟩
  · rfl
  · rfl
  · rfl
  · rfl
  · simp
    rfl

theorem buildHvccRecord_pair : buildHvccRecord (annexbNalu sps ++ annexbNalu pps) = none := by
  have tstrip := h264NalType_strip tsps (by decide)
  have hf : [dropTrailingZeros sps, pps].find? (h265NalType · = some 32) = none := by
    simp [h265NalType_of_h264 tstrip, h265NalType_of_h264 tpps]
  simp only [buildHvccRecord, split_pair hsps (ne_nil_of_h264NalType tstrip) hpps, hf]
  rfl

end Avc

section Hevc

variable (hvps : IsUnit vps) (hsps : IsUnit sps) (hpps : IsUnit pps)
  (tvps : baseLayerNalType vps = 32)
  (tsps : baseLayerNalType sps = 33) (tpps : baseLayerNalType pps = 34)

include hvps hsps hpps tvps tsps tpps

theorem buildAvccRecord_triple :
    buildAvccRecord (annexbNalu vps ++ annexbNalu sps ++ annexbNalu pps) = none := by
  have bvps := (baseLayerNalType_eq tvps (by decide)).2
  have bsps := (baseLayerNalType_eq tsps (by decide)).2
  have bpps := (baseLayerNalType_eq tpps (by decide)).1
  unfold buildAvccRecord
  rw [split_triple hvps (ne_nil_of_h265NalType bvps) hsps (ne_nil_of_h265NalType bsps) hpps]
  have h7 : [dropTrailingZeros vps, dropTrailingZeros sps, pps].filter
      (fun nalu => h264NalType nalu = some 7) = [] := by
    simp [h264NalType_of_h265 bvps, h264NalType_of_h265 bsps, h264NalType_of_h265 bpps]
  simp only [h7]

theorem buildHvccRecord_triple :
    buildHvccRecord (annexbNalu vps ++ annexbNalu sps ++ annexbNalu pps) = (do
      let profile ← parseHevcProfileTierLevel (dropTrailingZeros sps)
      let vpsArray ← hvccArray 32 (dropTrailingZeros vps)
      let spsArray ← hvccArray 33 (dropTrailingZeros sps)
      let ppsArray ← hvccArray 34 pps
      return hvccHeader profile ++ vpsArray ++ spsArray ++ ppsArray) := by
  have bvps := (baseLayerNalType_eq tvps (by decide)).2
  have bsps := (baseLayerNalType_eq tsps (by decide)).2
  have bpps := (baseLayerNalType_eq tpps (by decide)).1
  have h32 : [dropTrailingZeros vps, dropTrailingZeros sps, pps].find? (h265NalType · = some 32) =
      some (dropTrailingZeros vps) := by simp [bvps]
  have h33 : [dropTrailingZeros vps, dropTrailingZeros sps, pps].find? (h265NalType · = some 33) =
      some (dropTrailingZeros sps) := by simp [bvps, bsps]
  have h34 : [dropTrailingZeros vps, dropTrailingZeros sps, pps].find? (h265NalType · = some 34) =
      some pps := by simp [bvps, bsps, bpps]
  simp only [buildHvccRecord, split_triple hvps (ne_nil_of_h265NalType bvps) hsps
    (ne_nil_of_h265NalType bsps) hpps, h32, h33, h34]
  rfl

end Hevc

end Headers

section Carried

open Rtmp

def nalType (enhancedHevc : Bool) (n : Nalu) : Option UInt8 :=
  if enhancedHevc then h265NalType n else h264NalType n

def setTypes (enhancedHevc : Bool) : List UInt8 := if enhancedHevc then [32, 33, 34] else [7, 8]

def isParameterSet (enhancedHevc : Bool) (n : Nalu) : Bool :=
  (nalType enhancedHevc n).any (· ∈ setTypes enhancedHevc)

def carriedSets (enhancedHevc : Bool) (payload : List UInt8) : List Nalu :=
  ((splitAnnexbNalus payload).filter (isParameterSet enhancedHevc)).map dropTrailingZeros

theorem u16Prefixed_isInfix (n : Nalu) : n <:+: u16Prefixed n := (suffix_append _ _).isInfix

variable {n sps pps : Nalu} {t : UInt8}

theorem hvccArray_isInfix {nalType : UInt8} (h : hvccArray nalType n = some array) :
    n <:+: array := by
  simp only [hvccArray, ite_none_right_eq_some, Option.some.injEq] at h
  rw [← h.2]
  exact (u16Prefixed_isInfix n).trans (suffix_append _ _).isInfix

theorem videoSequenceHeader_avc :
    videoSequenceHeader false bs = (buildAvccRecord bs).map ([0x17, 0, 0, 0, 0] ++ ·) := rfl

theorem videoSequenceHeader_hevc :
    videoSequenceHeader true bs = (buildHvccRecord bs).map ([0x80] ++ hvc1 ++ ·) := rfl

theorem avcHeader_carries (hsps : IsUnit sps) (hpps : IsUnit pps) (tsps : h264NalType sps = some 7)
    (tpps : h264NalType pps = some 8)
    (h : videoSequenceHeader false (annexbNalu sps ++ annexbNalu pps) = some hdr) :
    dropTrailingZeros sps <:+: hdr ∧ pps <:+: hdr := by
  rw [videoSequenceHeader_avc, buildAvccRecord_pair hsps hpps tsps tpps] at h
  obtain ⟨record, hr, rfl⟩ := map_eq_some_iff.mp h
  split at hr
  · simp only [ite_none_left_eq_some, Option.some.injEq] at hr
    rw [← hr.2]
    constructor
    · refine (u16Prefixed_isInfix _).trans ?_
      refine List.IsInfix.trans ?_ (suffix_append _ _).isInfix
      rw [append_assoc, append_assoc]
      exact infix_append' _ _ _
    · refine (u16Prefixed_isInfix _).trans ?_
      refine List.IsInfix.trans ?_ (suffix_append _ _).isInfix
      exact (suffix_append _ _).isInfix
  · cases hr

theorem hevcHeader_carries (hvps : IsUnit vps) (hsps : IsUnit sps) (hpps : IsUnit pps)
    (tvps : baseLayerNalType vps = 32) (tsps : baseLayerNalType sps = 33)
    (tpps : baseLayerNalType pps = 34)
    (h : videoSequenceHeader true (annexbNalu vps ++ annexbNalu sps ++ annexbNalu pps) = some hdr) :
    dropTrailingZeros vps <:+: hdr ∧ dropTrailingZeros sps <:+: hdr ∧ pps <:+: hdr := by
  rw [videoSequenceHeader_hevc, buildHvccRecord_triple hvps hsps hpps tvps tsps tpps] at h
  obtain ⟨record, hr, rfl⟩ := Option.map_eq_some_iff.mp h
  simp only [Option.bind_eq_bind, Option.bind_eq_some_iff, Option.pure_def, Option.some.injEq] at hr
  obtain ⟨profile, -, vpsArray, hv, spsArray, hs, ppsArray, hp, rfl⟩ := hr
  refine ⟨(hvccArray_isInfix hv).trans ?_, (hvccArray_isInfix hs).trans ?_,
    (hvccArray_isInfix hp).trans ?_⟩
  · exact ⟨[0x80] ++ hvc1 ++ hvccHeader profile, spsArray ++ ppsArray, by simp⟩
  · exact ⟨[0x80] ++ hvc1 ++ hvccHeader profile ++ vpsArray, ppsArray, by simp⟩
  · exact ⟨[0x80] ++ hvc1 ++ hvccHeader profile ++ vpsArray ++ spsArray, [], by simp⟩

theorem header_carries (hse : annexbParameterSets pay = some bs)
    (hh : videoSequenceHeader hevc bs = some hdr) (ht : t ∈ setTypes hevc) :
    ∃ n ∈ splitAnnexbNalus pay, nalType hevc n = some t ∧
      nalType hevc (dropTrailingZeros n) = some t ∧ dropTrailingZeros n <:+: hdr := by
  have hu : ∀ n ∈ splitAnnexbNalus pay, IsUnit n := fun n hn => splitAnnexbNalus_isUnit hn
  have hs : ∀ {n : Nalu}, n <:+: hdr → dropTrailingZeros n <:+: hdr :=
    fun h => (dropTrailingZeros_isPrefix _).isInfix.trans h
  cases hevc with
  | false =>
    cases annexbParameterSets_records hse with
    | h265 hvps hsps hpps tvps tsps tpps =>
      rw [videoSequenceHeader_avc, buildAvccRecord_triple (hu _ hvps) (hu _ hsps) (hu _ hpps)
        tvps tsps tpps] at hh
      cases hh
    | h264 hsps hpps tsps tpps =>
      obtain ⟨cs, cp⟩ := avcHeader_carries (hu _ hsps) (hu _ hpps) tsps tpps hh
      rcases (by simpa [setTypes] using ht : t = 7 ∨ t = 8) with rfl | rfl
      · exact ⟨_, hsps, tsps, h264NalType_strip tsps (by decide), cs⟩
      · exact ⟨_, hpps, tpps, h264NalType_strip tpps (by decide), hs cp⟩
  | true =>
    cases annexbParameterSets_records hse with
    | h265 hvps hsps hpps tvps tsps tpps =>
      obtain ⟨cv, cs, cp⟩ := hevcHeader_carries (hu _ hvps) (hu _ hsps) (hu _ hpps) tvps tsps tpps hh
      have bvps := baseLayerNalType_eq tvps (by decide)
      have bsps := baseLayerNalType_eq tsps (by decide)
      have bpps := baseLayerNalType_eq tpps (by decide)
      rcases (by simpa [setTypes] using ht : t = 32 ∨ t = 33 ∨ t = 34) with rfl | rfl | rfl
      · exact ⟨_, hvps, bvps.1, bvps.2, cv⟩
      · exact ⟨_, hsps, bsps.1, bsps.2, cs⟩
      · exact ⟨_, hpps, bpps.1, bpps.2, hs cp⟩
    | h264 hsps hpps tsps tpps =>
      rw [videoSequenceHeader_hevc, buildHvccRecord_pair (hu _ hsps) (hu _ hpps) tsps tpps] at hh
      cases hh

def ExceedsRecord (enhancedHevc : Bool) (payload : List UInt8) : Prop :=
  (∃ n ∈ splitAnnexbNalus payload, isParameterSet enhancedHevc n ∧ 65535 < n.length) ∨
    enhancedHevc = false ∧ (31 < (splitAnnexbNalus payload).countP (h264NalType · = some 7) ∨
      255 < (splitAnnexbNalus payload).countP (h264NalType · = some 8))

instance (enhancedHevc : Bool) (payload : List UInt8) :
    Decidable (ExceedsRecord enhancedHevc payload) :=
  inferInstanceAs (Decidable (_ ∨ _))

def readableSps (enhancedHevc : Bool) (n : Nalu) : Bool :=
  if enhancedHevc then (parseHevcProfileTierLevel n).isSome else 4 ≤ n.length

/-- The access unit carries every type of parameter set, no two different sets
of one type, and nothing that reads as a set of the other codec or of another
layer than the base one. -/
@[mk_iff]
structure OneOfEach (enhancedHevc : Bool) (nalus : List Nalu) : Prop where
  complete : ∀ t ∈ setTypes enhancedHevc, ∃ n ∈ nalus, nalType enhancedHevc n = some t
  single : ∀ a ∈ nalus, ∀ b ∈ nalus, isParameterSet enhancedHevc a = true →
    nalType enhancedHevc a = nalType enhancedHevc b → dropTrailingZeros a = dropTrailingZeros b
  base : ∀ n ∈ nalus, isBaseSet n = (enhancedHevc && isParameterSet true n)
  readable : ∀ n ∈ nalus, nalType enhancedHevc n = some (if enhancedHevc then 33 else 7) →
    readableSps enhancedHevc (dropTrailingZeros n) = true

instance (enhancedHevc : Bool) (nalus : List Nalu) : Decidable (OneOfEach enhancedHevc nalus) :=
  letI : Decidable (∀ t ∈ setTypes enhancedHevc, ∃ n ∈ nalus, nalType enhancedHevc n = some t) :=
    List.decidableBAll _ _
  decidable_of_iff' _ (oneOfEach_iff _ _)

theorem isParameterSet_of_type (ht : t ∈ setTypes hevc) (h : nalType hevc n = some t) :
    isParameterSet hevc n = true := by
  simp [isParameterSet, h, ht]

theorem length_of_not_exceeds (h : ¬ExceedsRecord hevc pay) (hn : n ∈ splitAnnexbNalus pay)
    (hset : isParameterSet hevc n = true) :
    (dropTrailingZeros n).length ≤ 65535 ∧ n.length ≤ 65535 := by
  have hlen : n.length ≤ 65535 := by
    by_contra hlt
    exact h (.inl ⟨n, hn, hset, by omega⟩)
  exact ⟨(dropTrailingZeros_isPrefix n).length_le.trans hlen, hlen⟩

theorem baseLayerNalType_of_base (ht : h265NalType n = some t) (hba : isBaseSet n = true) :
    baseLayerNalType n = t := by
  simp only [isBaseSet, Bool.or_eq_true, decide_eq_true_eq] at hba
  rcases hba with (hb | hb) | hb <;>
  · have ht' := (baseLayerNalType_eq hb (by decide)).1
    rw [ht, Option.some.injEq] at ht'
    rw [hb, ht']

theorem OneOfEach.builds (h : OneOfEach hevc (splitAnnexbNalus pay))
    (hf : ¬ExceedsRecord hevc pay) : ∃ bs hdr, annexbParameterSets pay = some bs ∧
      videoSequenceHeader hevc bs = some hdr := by
  have hu : ∀ n ∈ splitAnnexbNalus pay, IsUnit n := fun n hn => splitAnnexbNalus_isUnit hn
  cases hevc with
  | false =>
    have hno : ∀ n ∈ splitAnnexbNalus pay, isBaseSet n = false := by simpa using h.base
    obtain ⟨bs, hby⟩ :=
      annexbParameterSets_h264 hno (h.complete 7 (by decide)) (h.complete 8 (by decide))
    refine ⟨bs, ?_⟩
    cases annexbParameterSets_records hby with
    | h265 hvps _ _ tvps =>
      have hfa := hno _ hvps
      simp [isBaseSet, tvps] at hfa
    | @h264 sps pps hsps hpps tsps tpps =>
      have hr := h.readable sps hsps tsps
      have hlen := length_of_not_exceeds hf hsps (isParameterSet_of_type (by decide) tsps)
      have hlen' := length_of_not_exceeds hf hpps (isParameterSet_of_type (by decide) tpps)
      rw [videoSequenceHeader_avc, buildAvccRecord_pair (hu _ hsps) (hu _ hpps) tsps tpps]
      generalize dropTrailingZeros sps = strip at hr hlen
      match strip, hr, hlen with
      | _ :: _ :: _ :: _ :: _, _, hlen =>
        simp only
        rw [if_neg (by omega)]
        exact ⟨_, hby, rfl⟩
  | true =>
    have hba : ∀ t ∈ setTypes true, ∃ n ∈ splitAnnexbNalus pay, baseLayerNalType n = t := by
      intro t ht
      obtain ⟨n, hn, hty⟩ := h.complete t ht
      have hset : isParameterSet true n = true := isParameterSet_of_type ht hty
      have hb := h.base n hn
      rw [hset] at hb
      exact ⟨n, hn, baseLayerNalType_of_base hty hb⟩
    obtain ⟨bs, hby⟩ := annexbParameterSets_h265 (hba 32 (by decide)) (hba 33 (by decide))
      (hba 34 (by decide))
    refine ⟨bs, ?_⟩
    cases annexbParameterSets_records hby with
    | @h265 vps sps pps hvps hsps hpps tvps tsps tpps =>
      have bvps := (baseLayerNalType_eq tvps (by decide)).1
      have bsps := (baseLayerNalType_eq tsps (by decide)).1
      have bpps := (baseLayerNalType_eq tpps (by decide)).1
      have lvps := length_of_not_exceeds hf hvps (isParameterSet_of_type (by decide) bvps)
      have lsps := length_of_not_exceeds hf hsps (isParameterSet_of_type (by decide) bsps)
      have lpps := length_of_not_exceeds hf hpps (isParameterSet_of_type (by decide) bpps)
      obtain ⟨profile, hp⟩ := isSome_iff_exists.mp (h.readable sps hsps bsps)
      rw [videoSequenceHeader_hevc, buildHvccRecord_triple (hu _ hvps) (hu _ hsps) (hu _ hpps)
        tvps tsps tpps]
      simp [hp, hvccArray, lvps.1, lsps.1, lpps.2, hby]
    | h264 hsps hpps tsps tpps hno =>
      obtain ⟨n, hn, ht⟩ := hba 32 (by decide)
      have hfa := hno n hn
      simp [isBaseSet, ht] at hfa

end Carried

end Restream.Codec
