import Restream.OutputConfig
import Restream.StageGraph
import Mathlib.Data.Nat.Digits.Defs

/-! The text of a stage, and what FFmpeg is told of a stage whose text it is given: the
audio operation and the video are read back from it. -/

namespace Restream

open List Option AudioRouting StageKind Nat

def StageKind.display : StageKind → String
  | .source => "source"
  | .hls | .hlsSegmenter .source => "hls"
  | .hlsSegmenter upstream => "hls:from:" ++ upstream.display
  | .recording => "recording"
  | .videoPreset preset (some codec) => "video:" ++ preset ++ ":codec:" ++ codec
  | .videoPreset preset none => "video:" ++ preset
  | .audioRoute operation upstream => "audio:" ++ operation ++ ":from:" ++ upstream.display
  | .codecEdge operation upstream => operation ++ ":from:" ++ upstream.display
  | .preview preset upstream => "preview:" ++ preset ++ ":from:" ++ upstream.display

def rsplitOnce (separator : List Char) : List Char → Option (List Char × List Char)
  | [] => none
  | c :: rest =>
    match rsplitOnce separator rest with
    | some (before, after) => some (c :: before, after)
    | none => ((c :: rest).dropPrefix? separator).map fun after => ([], after)

def parseUsize (text : List Char) : Option Nat :=
  let digits := match text with
    | '+' :: rest => rest
    | _ => text
  if digits = [] ∨ ¬digits.all Char.isDigit then none
  else if Nat.ofDigitChars 10 digits 0 < 2 ^ 64 then some (Nat.ofDigitChars 10 digits 0)
  else none

def isAudioOperation (value : List Char) : Bool :=
  "atrack:".toList.isPrefixOf value || "remap:".toList.isPrefixOf value ||
    "downmix:".toList.isPrefixOf value

def parseAudioOperation (operation : List Char) : AudioRouting :=
  match operation.dropPrefix? "remap:".toList with
  | some rest =>
    match rest.splitOn ':' with
    | left :: right :: more =>
      .remap ((more.head?.bind parseUsize).getD 0) ((parseUsize left).getD 0)
        ((parseUsize right).getD 1)
    | _ => .passthrough
  | none =>
    match operation.dropPrefix? "atrack:".toList with
    | some rest =>
      match (rest.splitOn ',').filterMap parseUsize with
      | [] => .passthrough
      | tracks => .selectTracks tracks
    | none =>
      match (operation.dropPrefix? "downmix:".toList).bind parseUsize with
      | some track => .downmix track
      | none => .passthrough

def splitPlus (text : List Char) : List Char × Option (List Char) :=
  match text.span (· ≠ '+') with
  | (before, _ :: after) => (before, some after)
  | (before, []) => (before, none)

def parseAudioRouting (encoding : List Char) : AudioRouting :=
  match splitPlus encoding with
  | (_, some audio) => parseAudioOperation audio
  | (_, none) => if isAudioOperation encoding then parseAudioOperation encoding else .passthrough

inductive VideoSelector where
  | source
  | preset (name : List Char)
  | custom
  deriving DecidableEq, Repr

def VideoSelector.named (name : List Char) : VideoSelector :=
  if name = [] ∨ name = "source".toList then .source
  else if name = "custom".toList then .custom
  else .preset name

structure StagePresetSpec where
  video : VideoSelector
  audioOperation : Option (List Char)
  deriving DecidableEq, Repr

def OutputEncodingSpec.parse (encoding : List Char) : StagePresetSpec :=
  let (first, second) := splitPlus encoding
  if isAudioOperation first then { video := .source, audioOperation := some first }
  else { video := .named first, audioOperation := second.filter (· ≠ []) }

def StagePresetSpec.parse (preset : List Char) : StagePresetSpec :=
  match preset.dropPrefix? "video:".toList with
  | some video => { video := .named video, audioOperation := none }
  | none =>
    match preset.dropPrefix? "audio:".toList with
    | some rest =>
      { video := .source
        audioOperation := some (((rsplitOnce ":from:".toList rest).map Prod.fst).getD rest) }
    | none => OutputEncodingSpec.parse preset

def stageAudioRouting (preset : List Char) : Option AudioRouting :=
  let routing := match (StagePresetSpec.parse preset).audioOperation with
    | some operation => parseAudioOperation operation
    | none => parseAudioRouting preset
  match routing with
  | .remap _ _ _ | .downmix _ => some routing
  | _ => none

def AudioRouting.Fits : AudioRouting → Prop
  | .passthrough => True
  | .selectTracks tracks => ∀ track ∈ tracks, track < 2 ^ 64
  | .remap track left right => track < 2 ^ 64 ∧ left < 2 ^ 64 ∧ right < 2 ^ 64
  | .downmix track => track < 2 ^ 64

/-- The stages under an audio route: the source or a preset, perhaps behind a codec edge. -/
inductive AudioUpstream : StageKind → Prop
  | source : AudioUpstream .source
  | preset (preset : String) (codec : Option String) : AudioUpstream (.videoPreset preset codec)
  | edgeOverSource : AudioUpstream (.codecEdge "hevc_to_h264" .source)
  | edgeOverPreset (preset : String) (codec : Option String) :
    AudioUpstream (.codecEdge "hevc_to_h264" (.videoPreset preset codec))

section Splitting

variable {separator text pre after : List Char}

theorem dropPrefix?_append (start rest : List Char) : (start ++ rest).dropPrefix? start = some rest :=
  dropPrefix?_eq_some_iff.mpr ⟨start, rfl, beq_self_eq_true start⟩

theorem eq_append_of_dropPrefix? (h : text.dropPrefix? separator = some after) :
    text = separator ++ after := by
  obtain ⟨start, rfl, hbeq⟩ := dropPrefix?_eq_some_iff.mp h
  rw [eq_of_beq hbeq]

theorem rsplitOnce_spec (h : rsplitOnce separator text = some (pre, after)) :
    text = pre ++ (separator ++ after) := by
  induction text generalizing pre with
  | nil => cases h
  | cons c rest ih =>
    unfold rsplitOnce at h
    split at h
    · next start tail hr =>
      obtain ⟨rfl, rfl⟩ := Prod.mk.inj (Option.some.inj h)
      rw [ih hr, cons_append]
    · obtain ⟨tail, ht, heq⟩ := map_eq_some_iff.mp h
      obtain ⟨rfl, rfl⟩ := Prod.mk.inj heq
      rw [nil_append]
      exact eq_append_of_dropPrefix? ht

theorem rsplitOnce_eq_none (hne : separator ≠ []) :
    rsplitOnce separator text = none ↔ ¬separator <:+: text
    := by
  induction text with
  | nil => simpa [rsplitOnce] using hne
  | cons c rest ih =>
    rw [infix_cons_iff, not_or, ← ih, rsplitOnce]
    cases hr : rsplitOnce separator rest with
    | some parts => simp
    | none =>
      simp only [map_eq_none_iff, and_true]
      constructor
      · rintro hd ⟨tail, ht⟩
        rw [← ht, dropPrefix?_append] at hd
        cases hd
      · intro hs
        cases hd : (c :: rest).dropPrefix? separator with
        | none => rfl
        | some tail => exact (hs ⟨tail, (eq_append_of_dropPrefix? hd).symm⟩).elim

theorem rsplitOnce_append (start : List Char) (h : rsplitOnce separator text = some (pre, after)) :
    rsplitOnce separator (start ++ text) = some (start ++ pre, after) := by
  induction start with
  | nil => exact h
  | cons c start ih => rw [cons_append, rsplitOnce, ih, cons_append]

end Splitting

section Numbers

theorem exists_digit_cons (n : Nat) : ∃ c rest, toDigits 10 n = c :: rest ∧ c.isDigit = true := by
  cases h : toDigits 10 n with
  | nil => exact absurd h toDigits_ne_nil
  | cons c rest =>
    exact ⟨c, rest, rfl, isDigit_of_mem_toDigits (by decide) (by decide) (h ▸ mem_cons_self)⟩

theorem parseUsize_of_digit (hc : c.isDigit = true) :
    parseUsize (c :: rest) =
      if ¬(c :: rest).all Char.isDigit then none else if ofDigitChars 10 (c :: rest) 0 <
        2 ^ 64 then some (ofDigitChars 10 (c :: rest) 0) else none := by
  have hp : c ≠ '+' := by
    rintro rfl
    exact absurd hc (by decide)
  unfold parseUsize
  split
  · next hs => exact absurd (List.cons.inj hs).1 hp
  · simp only [reduceCtorEq, false_or]

theorem parseUsize_toDigits (h : n < 2 ^ 64) : parseUsize (toDigits 10 n) = some n := by
  obtain ⟨c, rest, hdi, hc⟩ := exists_digit_cons n
  have hall : (toDigits 10 n).all Char.isDigit = true :=
    all_eq_true.mpr fun d hd => isDigit_of_mem_toDigits (by decide) (by decide) hd
  have hv : ofDigitChars 10 (toDigits 10 n) 0 = n := ofDigitChars_toDigits (by decide) (by decide)
  rw [hdi] at hall hv ⊢
  rw [parseUsize_of_digit hc, if_neg (not_not_intro hall), hv, if_pos h]

theorem parseUsize_digits_append (hc : c.isDigit = false) (rest : List Char) :
    parseUsize (toDigits 10 n ++ c :: rest) = none := by
  obtain ⟨d, digits, hdi, hd⟩ := exists_digit_cons n
  rw [hdi, cons_append, parseUsize_of_digit hd, if_pos]
  intro hall
  have hmem := all_eq_true.mp hall c (by simp)
  rw [hc] at hmem
  cases hmem

theorem digits_ne_colon (hc : c ∈ toDigits 10 n) : (c == ':') = false := by
  have hd := isDigit_of_mem_toDigits (by decide) (by decide) hc
  refine beq_eq_false_iff_ne.mpr ?_
  rintro rfl
  exact absurd hd (by decide)

theorem splitOn_digits :
    (toDigits 10 n ++ ':' :: rest).splitOn ':' = toDigits 10 n :: rest.splitOn ':' :=
  splitOnP_append_cons_of_forall_mem (fun _ => digits_ne_colon) ':' (by decide) rest

theorem splitOn_digits_end (n : Nat) : (toDigits 10 n).splitOn ':' = [toDigits 10 n] :=
  splitOnP_eq_singleton fun _ => digits_ne_colon

end Numbers

section Operations

variable {track left right : Nat}

def trackText : Nat → List Char
  | 0 => []
  | track + 1 => ':' :: Nat.toDigits 10 (track + 1)

def remapText (track left right : Nat) : List Char :=
  "remap:".toList ++ (Nat.toDigits 10 left ++ ':' :: (Nat.toDigits 10 right ++ trackText track))

theorem remapText_eq : remapText track left right =
    "remap:".toList ++ (toDigits 10 left ++ ':' :: (toDigits 10 right ++ trackText track)) := rfl

theorem toList_toString (n : Nat) : (toString n).toList = toDigits 10 n := toList_repr

theorem toList_join {a b c d : String} {as bs cs ds : List Char}
    (ha : a.toList = as) (hb : b.toList = bs)
    (hc : c.toList = cs) (hd : d.toList = ds) :
    (a ++ b ++ c ++ d).toList = as ++ (bs ++ (cs ++ ds)) := by
  simp only [String.toList_append, append_assoc, ha, hb, hc, hd]

theorem operationString_remap (track left right : Nat) :
    ∃ op, (remap track left right).operationString = some op ∧
      op.toList = remapText track left right := by
  have hc : ":".toList = [':'] := rfl
  have hs : ("remap:" ++ toString left ++ ":" ++ toString right).toList =
      "remap:".toList ++ (Nat.toDigits 10 left ++ ':' :: Nat.toDigits 10 right) :=
    toList_join rfl (toList_toString left) hc (toList_toString right)
  cases track with
  | zero =>
    refine ⟨"remap:" ++ toString left ++ ":" ++ toString right, rfl, hs.trans ?_⟩
    rw [remapText_eq, trackText, append_nil (Nat.toDigits 10 right)]
  | succ track =>
    refine ⟨"remap:" ++ toString left ++ ":" ++ toString right ++ ":" ++ toString (track + 1),
      rfl, ?_⟩
    rw [String.toList_append, String.toList_append, hs, toList_toString]
    rw [append_assoc, append_assoc, append_assoc]
    rfl

theorem operationString_downmix (track : Nat) :
    ∃ op, (downmix track).operationString = some op ∧
      op.toList = "downmix:".toList ++ toDigits 10 track := by
  refine ⟨"downmix:" ++ toString track, rfl, ?_⟩
  rw [String.toList_append, toList_toString]

theorem splitOn_letter (more : List Char) :
    ∃ word words, ('f' :: more).splitOn ':' = ('f' :: word) :: words
    := by
  have hs : ('f' :: more).splitOn ':' = (more.splitOn ':').modifyHead ('f' :: ·) := by
    rw [splitOn, splitOnP_cons_eq_if_modifyHead]
    rfl
  cases hm : more.splitOn ':' with
  | nil => exact absurd hm (splitOnP_ne_nil _ _)
  | cons word words => exact ⟨word, words, by rw [hs, hm]; rfl⟩

def UpstreamText (tail : List Char) : Prop := tail = [] ∨ ∃ more, tail = ':' :: 'f' :: more

theorem parse_trackText (htr : track < 2 ^ 64) {tail : List Char} (ht : UpstreamText tail) :
    ∃ more, (toDigits 10 right ++ (trackText track ++ tail)).splitOn ':' = toDigits 10 right :: more ∧
      (more.head?.bind parseUsize).getD 0 = track := by
  cases track with
  | zero =>
    rcases ht with rfl | ⟨more, rfl⟩
    · refine ⟨[], ?_, rfl⟩
      simpa [trackText] using splitOn_digits_end right
    · obtain ⟨word, words, hs⟩ := splitOn_letter more
      refine ⟨('f' :: word) :: words, ?_, ?_⟩
      · rw [trackText, nil_append, splitOn_digits, hs]
      · rfl
  | succ track =>
    have hh : ∃ words, (toDigits 10 (track + 1) ++ tail).splitOn ':' =
        toDigits 10 (track + 1) :: words := by
      rcases ht with rfl | ⟨more, rfl⟩
      · exact ⟨[], by rw [append_nil, splitOn_digits_end]⟩
      · exact ⟨_, splitOn_digits⟩
    obtain ⟨words, hw⟩ := hh
    refine ⟨toDigits 10 (track + 1) :: words, ?_, ?_⟩
    · rw [trackText, cons_append, splitOn_digits, hw]
    · rw [head?_cons, bind_some, parseUsize_toDigits htr, getD_some]

theorem parseAudioOperation_remap (ht : track < 2 ^ 64) (hl : left < 2 ^ 64) (hr : right < 2 ^ 64)
    {tail : List Char} (hta : UpstreamText tail) :
    parseAudioOperation (remapText track left right ++ tail) = .remap track left right := by
  obtain ⟨more, hs, hm⟩ : ∃ more, (toDigits 10 right ++ (trackText track ++ tail)).splitOn ':' =
      toDigits 10 right :: more ∧ (more.head?.bind parseUsize).getD 0 = track :=
    parse_trackText ht hta
  have hp : (toDigits 10 left ++
    ':' :: (toDigits 10 right ++ (trackText track ++ tail))).splitOn ':' =
      toDigits 10 left :: toDigits 10 right :: more := by
    rw [splitOn_digits, hs]
  have hte : remapText track left right ++ tail = "remap:".toList ++
      (toDigits 10 left ++ ':' :: (toDigits 10 right ++ (trackText track ++ tail))) := by
    rw [remapText_eq, append_assoc, append_assoc, ← append_assoc (Nat.toDigits 10 right)]
    rfl
  rw [hte, parseAudioOperation, dropPrefix?_append]
  simp only [hp, hm, parseUsize_toDigits hl, parseUsize_toDigits hr, getD_some]

theorem parseAudioOperation_downmix (ht : track < 2 ^ 64)
    {tail : List Char} (hta : UpstreamText tail) :
    parseAudioOperation ("downmix:".toList ++ (toDigits 10 track ++ tail)) =
      if tail = [] then .downmix track else .passthrough := by
  have hd : ("downmix:".toList ++ (toDigits 10 track ++ tail)).dropPrefix? "downmix:".toList =
      some (toDigits 10 track ++ tail) := dropPrefix?_append _ _
  have hr : ("downmix:".toList ++ (toDigits 10 track ++ tail)).dropPrefix? "remap:".toList = none :=
    rfl
  have ha : ("downmix:".toList ++ (toDigits 10 track ++ tail)).dropPrefix? "atrack:".toList =
      none := rfl
  rw [parseAudioOperation, hr, ha, hd]
  rcases hta with rfl | ⟨more, rfl⟩
  · simp only [append_nil, bind_some, parseUsize_toDigits ht, if_true]
  · simp only [bind_some, parseUsize_digits_append (c := ':') (by decide), reduceCtorEq, if_false]

end Operations

section Stages

def separator : List Char := ":from:".toList

theorem rsplitOnce_operation (op upstream : List Char) :
    ∃ tail after, rsplitOnce separator (op ++ (separator ++ upstream)) = some (op ++ tail, after) ∧
      UpstreamText tail ∧ (tail = [] ↔ ¬separator <:+: "from:".toList ++ upstream) := by
  have hne : separator ≠ [] := by decide
  have hc : separator ++ upstream = ':' :: ("from:".toList ++ upstream) := rfl
  cases hl : rsplitOnce separator ("from:".toList ++ upstream) with
  | none =>
    have hf : rsplitOnce separator (separator ++ upstream) = some ([], upstream) := by
      rw [hc, rsplitOnce, hl]
      show ((separator ++ upstream).dropPrefix? separator).map _ = _
      rw [dropPrefix?_append]
      rfl
    exact ⟨[], upstream, rsplitOnce_append op hf, .inl rfl,
      ⟨fun _ => (rsplitOnce_eq_none hne).mp hl, fun _ => rfl⟩⟩
  | some parts =>
    obtain ⟨pre, after⟩ := parts
    have hla : rsplitOnce separator (separator ++ upstream) = some (':' :: pre, after) := by
      rw [hc, rsplitOnce, hl]
    have ho : separator <:+: "from:".toList ++ upstream := by
      by_contra hnot
      rw [(rsplitOnce_eq_none hne).mpr hnot] at hl
      cases hl
    refine ⟨':' :: pre, after, rsplitOnce_append op hla, .inr ?_,
      ⟨fun hnil => (nomatch hnil), fun hnot => (hnot ho).elim⟩⟩
    have ht := rsplitOnce_spec hl
    cases pre with
    | nil => exact absurd (List.cons.inj ht).1 (by decide)
    | cons c more =>
      obtain rfl : 'f' = c := (List.cons.inj ht).1
      exact ⟨more, rfl⟩

theorem occurs_from_append (h : ¬"from:".toList <+: upstream) :
    separator <:+: "from:".toList ++ upstream ↔ separator <:+: upstream := by
  have hs : ∀ (c : Char) (rest : List Char), c ≠ ':' →
      (separator <:+: c :: rest ↔ separator <:+: rest) := by
    intro c rest hc
    rw [infix_cons_iff, or_iff_right]
    rintro ⟨tail, ht⟩
    exact hc (List.cons.inj ht).1.symm
  have hco : separator <:+: ':' :: upstream ↔ separator <:+: upstream := by
    rw [infix_cons_iff, or_iff_right]
    rintro ⟨tail, ht⟩
    exact h ⟨tail, (List.cons.inj ht).2⟩
  show separator <:+: 'f' :: 'r' :: 'o' :: 'm' :: ':' :: upstream ↔ _
  rw [hs _ _ (by decide), hs _ _ (by decide), hs _ _ (by decide), hs _ _ (by decide), hco]

theorem not_from_of_head (hc : c ≠ 'f') : ¬"from:".toList <+: c :: rest := by
  rintro ⟨tail, ht⟩
  exact hc (List.cons.inj ht).1.symm

theorem AudioUpstream.not_from (h : AudioUpstream upstream) :
    ¬"from:".toList <+: upstream.display.toList := by
  have hs (start : List Char) (rest : String) (c : Char) (hc : c ≠ 'f') (text : String)
      (ht : text.toList = c :: start) : ¬"from:".toList <+: (text ++ rest).toList := by
    rw [String.toList_append, ht]
    exact not_from_of_head hc
  cases h with
  | source => decide
  | preset preset codec =>
    cases codec with
    | none => exact hs _ _ 'v' (by decide) "video:" rfl
    | some codec =>
      simp only [display, String.append_assoc]
      exact hs _ _ 'v' (by decide) "video:" rfl
  | edgeOverSource | edgeOverPreset => exact hs _ _ 'h' (by decide) "hevc_to_h264:from:" rfl

variable {upstream : StageKind}

theorem parse_audioRoute (op : String) (upstream : StageKind) :
    ∃ tail, StagePresetSpec.parse (audioRoute op upstream).display.toList =
        { video := .source, audioOperation := some (op.toList ++ tail) } ∧
      UpstreamText tail ∧
      (tail = [] ↔ ¬separator <:+: "from:".toList ++ upstream.display.toList) := by
  obtain ⟨tail, after, hs, ht, hnil⟩ := rsplitOnce_operation op.toList upstream.display.toList
  have hte : (audioRoute op upstream).display.toList =
      "audio:".toList ++ (op.toList ++ (separator ++ upstream.display.toList)) := by
    exact toList_join rfl rfl rfl rfl
  refine ⟨tail, ?_, ht, hnil⟩
  have hv : ("audio:".toList ++ (op.toList ++ (separator ++ upstream.display.toList))).dropPrefix?
      "video:".toList = none := rfl
  rw [hte, StagePresetSpec.parse, hv, dropPrefix?_append]
  have hf : rsplitOnce ":from:".toList (op.toList ++ (separator ++ upstream.display.toList)) =
      some (op.toList ++ tail, after) := hs
  simp only [hf, map_some, getD_some]

def AudioRouting.isRemap : AudioRouting → Bool
  | .remap _ _ _ => true
  | _ => false

def AudioRouting.isDownmix : AudioRouting → Bool
  | .downmix _ => true
  | _ => false

/-- FFmpeg copies the video of an audio stage, always remaps as asked, and downmixes as
asked exactly when no separator occurs within the text of the upstream. -/
theorem audio_operation_reaches_ffmpeg {routing : AudioRouting} {operation : String}
    (hkind : routing.isRemap = true ∨ routing.isDownmix = true) (hfits : routing.Fits)
    (hoperation : routing.operationString = some operation) (hupstream : AudioUpstream upstream) :
    (StagePresetSpec.parse (audioRoute operation upstream).display.toList).video = .source ∧
    (stageAudioRouting (audioRoute operation upstream).display.toList = some routing ↔
      routing.isRemap = true ∨ ¬":from:".toList <:+: upstream.display.toList) := by
  obtain ⟨tail, hparse, htail, hnil⟩ := parse_audioRoute operation upstream
  refine ⟨by rw [hparse], ?_⟩
  rw [stageAudioRouting, hparse]
  cases routing with
  | passthrough | selectTracks => simp [isRemap, isDownmix] at hkind
  | remap track left right =>
    obtain ⟨text, htext, hlist⟩ := operationString_remap track left right
    obtain rfl := Option.some.inj (htext.symm.trans hoperation)
    obtain ⟨htrack, hleft, hright⟩ := hfits
    simp only [hlist, parseAudioOperation_remap htrack hleft hright htail, isRemap, true_or]
  | downmix track =>
    obtain ⟨text, htext, hlist⟩ := operationString_downmix track
    obtain rfl := Option.some.inj (htext.symm.trans hoperation)
    have hread : parseAudioOperation (text.toList ++ tail) =
        if tail = [] then .downmix track else .passthrough := by
      rw [hlist]
      exact parseAudioOperation_downmix hfits htail
    rw [occurs_from_append hupstream.not_from] at hnil
    simp only [hread, isRemap, Bool.false_eq_true, false_or]
    by_cases hend : tail = []
    · rw [if_pos hend]
      exact ⟨fun _ => hnil.mp hend, fun _ => rfl⟩
    · have hoccurs : separator <:+: upstream.display.toList := by
        by_contra hnot
        exact hend (hnil.mpr hnot)
      rw [if_neg hend]
      exact ⟨fun hread => (nomatch hread), fun hnot => (hnot hoccurs).elim⟩

end Stages

section Examples

theorem audio_operation_reaches_ffmpeg_preset :
    (downmix 1).Fits ∧ (downmix 1).operationString = some "downmix:1" ∧
      AudioUpstream (.videoPreset "720p" (some "h264")) ∧
      stageAudioRouting (audioRoute "downmix:1" (.videoPreset "720p" (some "h264"))).display.toList =
        some (.downmix 1) := by
  have hfits : (downmix 1).Fits := (by decide : 1 < 2 ^ 64)
  have hup : AudioUpstream (.videoPreset "720p" (some "h264")) := .preset _ _
  have hop : (downmix 1).operationString = some "downmix:1" := by decide +kernel
  exact ⟨hfits, hop, hup, (audio_operation_reaches_ffmpeg (.inr rfl) hfits hop hup).2.mpr
    (.inr (by decide +kernel))⟩

/-- The downmix of a stage behind a codec edge is lost. -/
theorem downmix_lost_behind_codec_edge : AudioUpstream (.codecEdge "hevc_to_h264" .source) ∧
      (downmix 1).operationString = some "downmix:1" ∧
      stageAudioRouting (audioRoute "downmix:1" (.codecEdge "hevc_to_h264" .source)).display.toList =
        none := by
  exact ⟨.edgeOverSource, by decide +kernel, by decide +kernel⟩

end Examples

end Restream
