import Restream.FlvConfig
import Restream.Keyframes

/-! Video on its way into a transport stream: Annex B passes, FLV frames are converted, and
the parameter sets seen last are put before keyframes. -/

namespace Restream.Codec

open Rtmp List Option

/-- The NAL units behind big-endian lengths of the given width, up to the first that is
empty or does not fit; `fuel` bounds the number of units. -/
def avccUnits (naluLenSize : Nat) : Nat → List UInt8 → List Nalu
  | 0, _ => []
  | fuel + 1, data =>
    if data.length < naluLenSize then []
    else
      let naluLen := (data.take naluLenSize).foldl (fun len byte => len * 2 ^ 8 + byte.toNat) 0
      let tail := data.drop naluLenSize
      if naluLen = 0 ∨ tail.length < naluLen then []
      else tail.take naluLen :: avccUnits naluLenSize fuel (tail.drop naluLen)

def avccToAnnexb (data : List UInt8) (naluLenSize : Nat) : List UInt8 :=
  if 1 ≤ naluLenSize ∧ naluLenSize ≤ 4 then
    (avccUnits naluLenSize data.length data).flatMap annexbNalu else []

def parseAvccConfig (data : List UInt8) : Nat × List UInt8 :=
  match data[4]? with
  | some lengthByte =>
    if 8 ≤ data.length then
      ((lengthByte &&& 0x03).toNat + 1,
        ((avccRecord data).map fun record => (record.sps ++ record.pps).flatMap annexbNalu).getD [])
    else (4, [])
  | none => (4, [])

structure TsVideoState where
  naluLenSize : Nat
  spsPpsCache : List UInt8
  deriving DecidableEq, Repr

namespace TsVideoState

def lengthPrefixedFrameToAnnexb (s : TsVideoState) (keyframe : Bool) (body : List UInt8) :
    Option (List UInt8) :=
  let frame := avccToAnnexb body s.naluLenSize
  if frame = [] then none else some ((if keyframe then s.spsPpsCache else []) ++ frame)

def configure (s : TsVideoState) (payload : List UInt8) : TsVideoState :=
  match flvVideoConfig payload with
  | some (naluLenSize, annexb) => { naluLenSize := naluLenSize, spsPpsCache := annexb }
  | none => s

def rawVideoForTs (s : TsVideoState) (payload : List UInt8) : TsVideoState × Option (List UInt8) :=
  if payload = [] then (s, none)
  else
    match annexbParameterSets payload with
    | some sets => ({ s with spsPpsCache := sets }, some payload)
    | none =>
      if s.spsPpsCache ≠ [] ∧ rawAnnexbIsKeyframe payload ∧ ¬s.spsPpsCache <+: payload then
        (s, some (s.spsPpsCache ++ payload))
      else (s, some payload)

def classicVideoForTs (s : TsVideoState) (tag packetType : UInt8) (payload body : List UInt8) :
    TsVideoState × Option (List UInt8) :=
  if body = [] then (s, none)
  else if packetType = 0 ∧ tag &&& 0x0F = 12 then (s.configure payload, none)
  else if packetType = 0 then
    let (naluLenSize, annexb) := parseAvccConfig body
    ({ naluLenSize, spsPpsCache := if annexb = [] then s.spsPpsCache else annexb }, none)
  else (s, s.lengthPrefixedFrameToAnnexb (tag &&& 0xF0 = 0x10) body)

def flvVideoForTs (s : TsVideoState) (payload : List UInt8) : TsVideoState × Option (List UInt8) :=
  match exVideoTag payload with
  | some tag =>
    if tag.packetType = exSequenceStart then (s.configure payload, none)
    else if tag.packetType = exCodedFrames ∨ tag.packetType = exCodedFramesX then
      (s, s.lengthPrefixedFrameToAnnexb tag.keyframe tag.body)
    else (s, none)
  | none =>
    match payload with
    | tag :: packetType :: _ :: _ :: _ :: body => s.classicVideoForTs tag packetType payload body
    | _ => (s, none)

def videoForTs (s : TsVideoState) (format : PayloadFormat) (payload : List UInt8) :
    TsVideoState × Option (List UInt8) :=
  match format with
  | .raw => s.rawVideoForTs payload
  | .flv => s.flvVideoForTs payload

end TsVideoState

def CompleteUnits (nalus : List Nalu) : Prop :=
  if nalus.any isBaseSet then
    (∃ n ∈ nalus, baseLayerNalType n = 32) ∧ (∃ n ∈ nalus, baseLayerNalType n = 33) ∧
      ∃ n ∈ nalus, baseLayerNalType n = 34
  else (∃ n ∈ nalus, h264NalType n = some 7) ∧ ∃ n ∈ nalus, h264NalType n = some 8

instance (nalus : List Nalu) : Decidable (CompleteUnits nalus) := by
  unfold CompleteUnits
  infer_instance

def CompleteSet (sets : List UInt8) : Prop := CompleteUnits (splitAnnexbNalus sets)

instance (sets : List UInt8) : Decidable (CompleteSet sets) :=
  inferInstanceAs (Decidable (CompleteUnits _))

def classicAvcHeader (payload : List UInt8) : Option (List UInt8) :=
  match exVideoTag payload, payload with
  | none, tag :: packetType :: _ :: _ :: _ :: body =>
    if packetType = 0 ∧ body ≠ [] ∧ tag &&& 0x0F ≠ 12 then some body else none
  | _, _ => none

def headerSets (payload : List UInt8) : Option (List UInt8) :=
  match classicAvcHeader payload with
  | some body => (avccRecord body).map fun record => (record.sps ++ record.pps).flatMap annexbNalu
  | none => (flvVideoConfig payload).map Prod.snd

open TsVideoState

def flvKeyframe (payload : List UInt8) : Bool :=
  match exVideoTag payload, payload with
  | some tag, _ => tag.keyframe
  | none, tag :: _ => tag &&& 0xF0 = 0x10
  | none, [] => false

namespace TsVideoState

def start (naluLenSize : Nat) : TsVideoState := { naluLenSize, spsPpsCache := [] }

def step (s : TsVideoState) (packet : PayloadFormat × List UInt8) : Option TsVideoState :=
  some (s.videoForTs packet.1 packet.2).1

/-- A header whose record is whole, or a classic one that says nothing new. -/
def WholeHeader (s : TsVideoState) (payload : List UInt8) : Prop :=
  (∀ body ∈ classicAvcHeader payload,
    CompleteSet (parseAvccConfig body).2 ∨ parseAvccConfig body = (s.naluLenSize, [])) ∧
  (classicAvcHeader payload = none → ∀ config ∈ flvVideoConfig payload, CompleteSet config.2)

instance (s : TsVideoState) (payload : List UInt8) : Decidable (s.WholeHeader payload) := by
  unfold WholeHeader
  infer_instance

def Whole (s : TsVideoState) (packet : PayloadFormat × List UInt8) : Prop :=
  packet.1 = .flv → s.WholeHeader packet.2

instance (s : TsVideoState) (packet : PayloadFormat × List UInt8) : Decidable (s.Whole packet) := by
  unfold Whole
  infer_instance

end TsVideoState

section Completeness

variable {payload sets : List UInt8}

theorem isBaseSet_of_strip (h : isBaseSet (dropTrailingZeros n) = true) : isBaseSet n = true := by
  obtain ⟨zeros, hz⟩ := dropTrailingZeros_isPrefix n
  rcases hstrip : dropTrailingZeros n with - | ⟨first, - | ⟨second, rest⟩⟩
  · rw [hstrip] at h
    cases h
  · rw [hstrip] at h
    cases h
  · rw [hstrip] at h hz
    rw [← hz]
    exact h

theorem completeSet_recorded (h : annexbParameterSets payload = some sets) : CompleteSet sets := by
  unfold CompleteSet
  cases annexbParameterSets_records h with
  | @h265 vps sps pps hvps hsps hpps tvps tsps tpps =>
    have svps := (baseLayerNalType_eq tvps (by decide)).2
    have ssps := (baseLayerNalType_eq tsps (by decide)).2
    have bvps := baseLayerNalType_strip tvps (by decide)
    rw [split_triple (splitAnnexbNalus_isUnit hvps) (ne_nil_of_h265NalType svps)
      (splitAnnexbNalus_isUnit hsps)
      (ne_nil_of_h265NalType ssps) (splitAnnexbNalus_isUnit hpps)]
    have hany : [dropTrailingZeros vps, dropTrailingZeros sps, pps].any isBaseSet = true :=
      any_eq_true.mpr ⟨dropTrailingZeros vps, by simp, by simp [isBaseSet, bvps]⟩
    rw [CompleteUnits, if_pos hany]
    exact ⟨⟨dropTrailingZeros vps, by simp, bvps⟩,
      ⟨dropTrailingZeros sps, by simp, baseLayerNalType_strip tsps (by decide)⟩,
      ⟨pps, by simp, tpps⟩⟩
  | @h264 sps pps hsps hpps tsps tpps hno =>
    have ssps := h264NalType_strip tsps (by decide)
    rw [split_pair (splitAnnexbNalus_isUnit hsps) (ne_nil_of_h264NalType ssps)
      (splitAnnexbNalus_isUnit hpps)]
    have hany : ¬[dropTrailingZeros sps, pps].any isBaseSet = true := by
      intro hany
      obtain ⟨n, hn, hb⟩ := any_eq_true.mp hany
      rcases mem_pair.mp hn with rfl | rfl
      · exact absurd (isBaseSet_of_strip hb) (by simp [hno sps hsps])
      · exact absurd hb (by simp [hno n hpps])
    rw [CompleteUnits, if_neg hany]
    exact ⟨⟨dropTrailingZeros sps, by simp, ssps⟩, ⟨pps, by simp, tpps⟩⟩

theorem not_completeSet_nil : ¬CompleteSet [] := by decide

end Completeness

section Headers

variable {s : TsVideoState} {payload body : List UInt8}

theorem configure_of_none (h : flvVideoConfig payload = none) : s.configure payload = s := by
  rw [configure, h]

theorem configure_classic (htag : exVideoTag (tag :: packetType :: a :: b :: c :: body) = none)
    (h : packetType ≠ 0 ∨ body = []) :
    s.configure (tag :: packetType :: a :: b :: c :: body) = s := by
  apply configure_of_none
  rw [flvVideoConfig, flvRecordSets, htag, map_eq_none_iff]
  rcases h with h | rfl
  · exact if_pos h
  · simp only [avccRecord, hvccRecord, getElem?_nil, bind_none, bind_eq_bind, ite_self]

theorem flvVideoForTs_state : (s.flvVideoForTs payload).1 =
      match classicAvcHeader payload with
      | some body =>
        { naluLenSize := (parseAvccConfig body).1
          spsPpsCache :=
            if (parseAvccConfig body).2 = [] then s.spsPpsCache else (parseAvccConfig body).2 }
      | none => s.configure payload := by
  cases htag : exVideoTag payload with
  | some tag =>
    simp only [flvVideoForTs, classicAvcHeader, htag]
    by_cases hs : tag.packetType = exSequenceStart
    · rw [if_pos hs]
    · have hn : flvVideoConfig payload = none := by
        unfold flvVideoConfig flvRecordSets
        simp only [htag, ne_eq, hs, not_false_eq_true, if_true, map_none]
      rw [if_neg hs, configure_of_none hn]
      split <;> rfl
  | none =>
    rcases payload with - | ⟨tag, - | ⟨packetType, - | ⟨a, - | ⟨b, - | ⟨c, body⟩⟩⟩⟩⟩
    case cons.cons.cons.cons.cons =>
      simp only [flvVideoForTs, classicAvcHeader, htag, classicVideoForTs]
      by_cases hb : body = []
      · simp only [hb, if_true, ne_eq, not_true_eq_false, false_and, and_false, if_false]
        exact (configure_classic (hb ▸ htag) (.inr rfl)).symm
      · by_cases ht : packetType = 0
        · by_cases hc : tag &&& 0x0F = 12 <;> simp [hb, ht, hc]
        · simp [hb, ht]
          exact (configure_classic htag (.inl ht)).symm
    all_goals
      refine (configure_of_none ?_).symm
      unfold flvVideoConfig flvRecordSets
      simp only [htag, map_none]

theorem headerSets_of_classic (hh : classicAvcHeader payload = some body)
    (hne : (parseAvccConfig body).2 ≠ []) : headerSets payload = some (parseAvccConfig body).2 := by
  rw [headerSets, hh]
  unfold parseAvccConfig at hne ⊢
  cases hl : body[4]? with
  | none => exact absurd (by rw [hl]) hne
  | some lengthByte =>
    simp only [hl] at hne ⊢
    by_cases hlo : 8 ≤ body.length
    · rw [if_pos hlo] at hne ⊢
      cases hr : avccRecord body with
      | none => exact absurd (by rw [hr]; rfl) hne
      | some record => rfl
    · rw [if_neg hlo] at hne
      exact absurd rfl hne

end Headers

section Runs

variable {s t : TsVideoState} {payload out : List UInt8}

theorem flvVideoForTs_whole (h : s.WholeHeader payload) : (s.flvVideoForTs payload).1 = s ∨ ∃ sets,
    headerSets payload = some sets ∧ CompleteSet sets ∧
    (s.flvVideoForTs payload).1.spsPpsCache = sets := by
  rw [flvVideoForTs_state]
  cases hh : classicAvcHeader payload with
  | some body =>
    rcases h.1 body hh with hc | hs
    · have hne : (parseAvccConfig body).2 ≠ [] := by
        intro hnil
        rw [hnil] at hc
        exact not_completeSet_nil hc
      exact .inr ⟨_, headerSets_of_classic hh hne, hc, if_neg hne⟩
    · exact .inl (by simp only [hs, if_true])
  | none =>
    cases hco : flvVideoConfig payload with
    | none => exact .inl (configure_of_none hco)
    | some c =>
      refine .inr ⟨c.2, ?_, h.2 hh c hco, by rw [configure, hco]⟩
      rw [headerSets, hh, hco]
      rfl

def TsVideoState.Inv (s : TsVideoState) : Prop := s.spsPpsCache = [] ∨ CompleteSet s.spsPpsCache

theorem TsVideoState.Inv.step (h : s.Inv) (hw : s.Whole p) (hst : s.step p = some t) : t.Inv := by
  cases hst
  obtain ⟨format, payload⟩ := p
  cases format with
  | raw =>
    simp only [videoForTs, rawVideoForTs]
    split
    · exact h
    · split
      · next hse => exact .inr (completeSet_recorded hse)
      · split <;> exact h
  | flv =>
    show (s.flvVideoForTs payload).1.Inv
    rcases flvVideoForTs_whole (hw rfl) with hs | ⟨sets, -, hc, hca⟩
    · rw [hs]
      exact h
    · exact .inr (hca ▸ hc)

theorem lengthPrefixedFrameToAnnexb_some (h : s.lengthPrefixedFrameToAnnexb keyframe body =
    some out) : ∃ frame ≠ [], out = (if keyframe then s.spsPpsCache else []) ++ frame := by
  rw [lengthPrefixedFrameToAnnexb] at h
  split at h
  · cases h
  · next hne => exact ⟨_, hne, (Option.some.inj h).symm⟩

theorem flvVideoForTs_frame (h : (s.flvVideoForTs payload).2 = some out) :
    ∃ frame ≠ [], out = (if flvKeyframe payload then s.spsPpsCache else []) ++ frame := by
  cases htag : exVideoTag payload with
  | some tag =>
    simp only [flvVideoForTs, flvKeyframe, htag] at h ⊢
    split at h
    · cases h
    · split at h
      · exact lengthPrefixedFrameToAnnexb_some h
      · cases h
  | none =>
    rcases payload with - | ⟨tag, - | ⟨packetType, - | ⟨a, - | ⟨b, - | ⟨c, body⟩⟩⟩⟩⟩ <;>
      simp only [flvVideoForTs, htag, reduceCtorEq] at h
    simp only [flvKeyframe, htag]
    rw [classicVideoForTs] at h
    split at h
    · cases h
    · split at h
      · cases h
      · split at h
        · cases h
        · exact lengthPrefixedFrameToAnnexb_some h

theorem videoForTs_ne_nil {format : PayloadFormat}
    (h : (s.videoForTs format payload).2 = some out) : out ≠
    [] := by
  cases format with
  | raw =>
    simp only [videoForTs, rawVideoForTs] at h
    split at h
    · cases h
    · next hne =>
      split at h
      · exact Option.some.inj h ▸ hne
      · split at h
        · exact Option.some.inj h ▸ append_ne_nil_of_right_ne_nil _ hne
        · exact Option.some.inj h ▸ hne
  | flv =>
    obtain ⟨frame, hf, rfl⟩ := flvVideoForTs_frame h
    exact append_ne_nil_of_right_ne_nil _ hf

/-- As long as every sequence header is whole, or a classic one that says nothing new, the
cache is empty or complete, a header without a complete set changes nothing, and a keyframe
starts with the cached sets. -/
theorem ts_parameter_sets_complete {naluLenSize : Nat}
    (h : Exec.Reachable TsVideoState.step TsVideoState.Whole (.start naluLenSize) s) :
    (s.spsPpsCache = [] ∨ CompleteSet s.spsPpsCache) ∧
    (∀ payload, s.WholeHeader payload → (∀ sets ∈ headerSets payload, ¬CompleteSet sets) →
      (s.videoForTs .flv payload).1 = s) ∧
    (∀ payload out, (s.videoForTs .flv payload).2 = some out → flvKeyframe payload = true →
      s.spsPpsCache <+: out) := by
  refine ⟨h.invariant TsVideoState.Inv
    (fun _ _ _ hinv hguard hstep => hinv.step hguard hstep) (.inl rfl), ?_, ?_⟩
  · intro payload hwhole hnone
    rcases flvVideoForTs_whole hwhole with hsame | ⟨sets, hsets, hcomplete, -⟩
    · exact hsame
    · exact (hnone sets hsets hcomplete).elim
  · intro payload out hout hkey
    obtain ⟨frame, -, rfl⟩ := flvVideoForTs_frame hout
    rw [if_pos hkey]
    exact List.prefix_append _ _

/-- A whole classic header fills the cache. -/
theorem ts_parameter_sets_complete_classic :
    ∃ s, Exec.Reachable TsVideoState.step TsVideoState.Whole (.start 4) s ∧
      CompleteSet s.spsPpsCache ∧
      s.naluLenSize = 2 :=
  Exec.exists_reachable_of_observed
    [(.flv, [0x17, 0, 0, 0, 0, 1, 66, 0, 30, 0xFD, 0xE1, 0, 2, 0x67, 0x42, 1, 0, 2, 0x68, 0xCE])]
    (fun s => s.spsPpsCache ≠ [] ∧ s.naluLenSize = 2) (by decide +kernel)
    fun _ hreach ⟨hcache, hsize⟩ => ⟨(ts_parameter_sets_complete hreach).1.resolve_left hcache, hsize⟩

/-- A classic header with a PPS alone fills the cache with it, and one that breaks off
changes the width of lengths. -/
theorem ts_parameter_sets_broken : (TsVideoState.start 4).videoForTs .flv
        [0x17, 0, 0, 0, 0, 1, 66, 0, 30, 0xFF, 0xE0, 1, 0, 2, 0x68, 0xCE] =
      ({ naluLenSize := 4, spsPpsCache := [0, 0, 0, 1, 0x68, 0xCE] }, none) ∧
    ¬CompleteSet [0, 0, 0, 1, 0x68, 0xCE] ∧
    headerSets [0x17, 0, 0, 0, 0, 1, 66, 0, 30, 0xFC, 0xE1, 0, 5] = none ∧
    (TsVideoState.start 4).videoForTs .flv [0x17, 0, 0, 0, 0, 1, 66, 0, 30, 0xFC, 0xE1, 0, 5] =
      (TsVideoState.start 1, none) := by
  decide +kernel

end Runs

theorem avccUnits_prefixed {units : List Nalu} (hu : ∀ n ∈ units, n ≠ [] ∧ n.length < 2 ^ 32)
    (hf : (units.flatMap u32Prefixed).length ≤ fuel) :
    avccUnits 4 fuel (units.flatMap u32Prefixed) = units := by
  induction units generalizing fuel with
  | nil => cases fuel <;> simp [avccUnits]
  | cons n units ih =>
    obtain ⟨⟨hne, hlen⟩, hr⟩ := forall_mem_cons.mp hu
    simp only [flatMap_cons, length_append, u32Prefixed, be32, length_cons] at hf
    obtain ⟨fuel, rfl⟩ : ∃ k, fuel = k + 1 := ⟨fuel - 1, by omega⟩
    have hread : (be32 n.length).foldl (fun len byte => len * 2 ^ 8 + byte.toNat) 0 = n.length := by
      simp [be32]
      omega
    have htake (rest) : (u32Prefixed n ++ rest).take 4 = be32 n.length := rfl
    have hdrop (rest) : (u32Prefixed n ++ rest).drop 4 = n ++ rest := rfl
    rw [flatMap_cons, avccUnits, if_neg (by simp [u32Prefixed, be32]), htake, hdrop, hread]
    simp [hne, ih hr (by omega : _ ≤ fuel)]

def codedUnits (payload : List UInt8) : List Nalu :=
  (splitAnnexbNalus payload).filter fun n => (h264NalType n).any
    fun nalType => !(7 ≤ nalType && nalType ≤ 9)

/-- An H.264 access unit sent over RTMP and put into a transport stream: its units but parameter
sets and delimiters come through in order, those of a keyframe behind the cached sets. -/
theorem rtmp_frame_reaches_ts {s : TsVideoState} (hsize : s.naluLenSize = 4)
    {payload frame : List UInt8}
    {isKeyframe : Bool} {compositionTimeMs : Int}
    (hlen : ∀ n ∈ splitAnnexbNalus payload, n.length < 2 ^ 32)
    (hframe : videoForRtmpWithComposition payload isKeyframe compositionTimeMs = some frame) :
    s.videoForTs .flv frame =
      (s, some ((if isKeyframe then s.spsPpsCache else []) ++
        (codedUnits payload).flatMap annexbNalu)) := by
  have hback : avccToAnnexb ((codedUnits payload).flatMap u32Prefixed) 4 =
      (codedUnits payload).flatMap annexbNalu := by
    rw [avccToAnnexb, if_pos (by decide), avccUnits_prefixed (fun n hn => ?_) le_rfl]
    have hn := mem_of_mem_filter hn
    exact ⟨(splitAnnexbNalus_isUnit hn).nonempty, hlen n hn⟩
  obtain ⟨hvcl, hframe⟩ := ite_none_right_eq_some.mp hframe
  obtain ⟨n, hn, -⟩ := any_eq_true.mp hvcl
  obtain ⟨n, rest, hunits : codedUnits payload = n :: rest⟩ :=
    exists_cons_of_ne_nil (ne_nil_of_mem hn)
  have hclassic : s.videoForTs .flv frame = s.classicVideoForTs
    (if isKeyframe then 0x17 else 0x27) 1 frame
      ((codedUnits payload).flatMap u32Prefixed) := by
    cases hframe
    cases isKeyframe <;> rfl
  rw [hclassic, classicVideoForTs, lengthPrefixedFrameToAnnexb, hsize, hback, hunits]
  cases isKeyframe <;> rfl

theorem rtmp_frame_reaches_ts_idr :
    (TsVideoState.mk 4 [0, 0, 1, 0x67]).videoForTs .flv [0x17, 1, 0, 0, 40, 0, 0, 0, 2, 0x65, 0x88] =
      (⟨4, [0, 0, 1, 0x67]⟩, some [0, 0, 1, 0x67, 0, 0, 0, 1, 0x65, 0x88]) := by
  have hframe : videoForRtmpWithComposition [0, 0, 1, 9, 0xF0, 0, 0, 1, 0x65, 0x88] true 40 =
      some [0x17, 1, 0, 0, 40, 0, 0, 0, 2, 0x65, 0x88] := by decide +kernel
  exact rtmp_frame_reaches_ts rfl (by decide) hframe

end Restream.Codec
