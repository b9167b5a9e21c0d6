import Restream.MediaPacket
import Restream.OutputConfig
import Mathlib.Data.List.Nodup

/-! Selecting audio tracks: the router renumbers the packets of the selected tracks, and
the track list of its ring describes the tracks under their new numbers. -/

namespace Restream.AudioRouter

open List Option UInt32 MediaPacket

structure AudioMeta where
  codec : String
  sampleRate : Nat
  channels : Nat
  channelLayout : Option String
  trackIndex : UInt32
  pid : Option Nat
  language : Option String
  title : Option String
  profile : Option String
  deriving DecidableEq, Repr

def selectTracks (tracks : List Nat) (inputIndex outputIndex : Nat) : List AudioMeta → List AudioMeta
  | [] => []
  | track :: rest =>
    if inputIndex ∈ tracks then
      { track with trackIndex := UInt32.ofNat outputIndex } ::
        selectTracks tracks (inputIndex + 1) (outputIndex + 1) rest
    else selectTracks tracks (inputIndex + 1) outputIndex rest

def applyAudioRouting (routing : AudioRouting) (inputTracks : List AudioMeta) : List AudioMeta :=
  match routing with
  | .passthrough => inputTracks
  | .selectTracks tracks => selectTracks tracks 0 0 inputTracks
  | .remap track _ _ => inputTracks[track]?.toList.map fun input => { input with trackIndex := 0 }
  | .downmix track =>
    inputTracks[track]?.toList.map fun input =>
      { input with trackIndex := 0, channels := 2, channelLayout := some "stereo" }

def routeAudioPacket (routing : AudioRouting) (packet : MediaPacket) : Option MediaPacket :=
  match routing, packet.mediaType with
  | .passthrough, _ | .downmix _, _ | .selectTracks _, .video | .remap _ _ _, .video => some packet
  | .selectTracks tracks, .audio =>
    (tracks.idxOf? packet.trackIndex).map fun outputIndex =>
      { packet with trackIndex := (UInt32.ofNat outputIndex).toNat }
  | .remap track _ _, .audio =>
    if packet.trackIndex = track then some { packet with trackIndex := 0 } else none

def selected (tracks : List Nat) (inputTracks : List AudioMeta) : List (AudioMeta × Nat) :=
  inputTracks.zipIdx.filter fun input => input.2 ∈ tracks

def entry (input : (AudioMeta × Nat) × Nat) : AudioMeta :=
  { input.1.1 with trackIndex := UInt32.ofNat input.2 }

/-- The packets of each input track are dropped and no entry describes it, or they come
out under the number of the entry that is a copy of it; no two tracks share a number. -/
structure Agree (tracks : List Nat) (inputTracks : List AudioMeta) : Prop where
  packets : ∀ i input, inputTracks[i]? = some input → ∀ packet : MediaPacket,
    packet.mediaType = .audio → packet.trackIndex = i →
      (routeAudioPacket (.selectTracks tracks) packet = none ∧
        ∀ track, (track, i) ∉ selected tracks inputTracks) ∨
        ∃ o : UInt32, routeAudioPacket (.selectTracks tracks) packet =
          some { packet with trackIndex := o.toNat } ∧
          (selected tracks inputTracks)[o.toNat]? = some (input, i) ∧
          (applyAudioRouting (.selectTracks tracks) inputTracks)[o.toNat]? =
            some { input with trackIndex := o }
  distinct : ∀ packet packet' out out' : MediaPacket, packet.mediaType = .audio →
    packet'.mediaType = .audio →
    packet.trackIndex < inputTracks.length → packet'.trackIndex < inputTracks.length →
    routeAudioPacket (.selectTracks tracks) packet = some out →
    routeAudioPacket (.selectTracks tracks) packet' = some out' →
    out.trackIndex = out'.trackIndex → packet.trackIndex = packet'.trackIndex

section Entries

variable (tracks : List Nat) (inputTracks : List AudioMeta)

theorem selectTracks_eq (inputIndex outputIndex : Nat) :
    selectTracks tracks inputIndex outputIndex inputTracks =
      (((inputTracks.zipIdx inputIndex).filter fun input => input.2 ∈
        tracks).zipIdx outputIndex).map entry := by
  induction inputTracks generalizing inputIndex outputIndex with
  | nil => rfl
  | cons t rest ih =>
    by_cases hmem : inputIndex ∈ tracks
    · rw [selectTracks, if_pos hmem, ih, zipIdx_cons, filter_cons_of_pos (by simpa using hmem),
        zipIdx_cons]
      rfl
    · rw [selectTracks, if_neg hmem, ih, zipIdx_cons, filter_cons_of_neg (by simpa using hmem)]

theorem applyAudioRouting_select : applyAudioRouting (.selectTracks tracks) inputTracks =
    (selected tracks inputTracks).zipIdx.map entry := selectTracks_eq tracks inputTracks 0 0

theorem map_snd_selected : (selected tracks inputTracks).map Prod.snd =
    (List.range inputTracks.length).filter (· ∈ tracks) := by
  have hr : inputTracks.zipIdx.map Prod.snd = List.range inputTracks.length := by
    rw [List.zipIdx_map_snd, List.range_eq_range']
  rw [← hr, List.filter_map]
  rfl

end Entries

section Selection

variable {tracks : List Nat} {inputTracks : List AudioMeta} {i o : Nat} {input : AudioMeta}

theorem mem_selected : (input, i) ∈ selected tracks inputTracks ↔
    inputTracks[i]? = some input ∧ i ∈ tracks
    := by
  simp [selected, mem_zipIdx_iff_getElem?]

theorem selected_getElem? (hi : inputTracks[i]? = some input)
    (ho : ((range inputTracks.length).filter (· ∈ tracks))[o]? = some i) :
    (selected tracks inputTracks)[o]? = some (input, i) := by
  rw [← map_snd_selected, getElem?_map, map_eq_some_iff] at ho
  obtain ⟨⟨t, j⟩, hget, rfl⟩ := ho
  obtain ⟨ht, -⟩ := mem_selected.mp (mem_of_getElem? hget)
  rw [hget, Option.some.inj (ht.symm.trans hi)]

theorem nodup_positions (tracks : List Nat) (count : Nat) :
    ((range count).filter (· ∈ tracks)).Nodup :=
  nodup_range.filter _

theorem route_select (ha : p.mediaType = .audio) :
    routeAudioPacket (.selectTracks tracks) p = (tracks.idxOf? p.trackIndex).map fun outputIndex =>
      { p with trackIndex := (ofNat outputIndex).toNat } := by
  simp only [routeAudioPacket, ha]

theorem idxOf?_of_mem (h : x ∈ tracks) : tracks.idxOf? x = some (tracks.idxOf x) := by
  cases hidx : tracks.idxOf? x with
  | none => exact absurd h (idxOf?_eq_none_iff.mp hidx)
  | some k => rw [idxOf_eq_getD_idxOf?, hidx, getD_some]

theorem exists_idxOf_of_route (ha : p.mediaType = .audio)
    (hr : routeAudioPacket (.selectTracks tracks) p = some out) :
    p.trackIndex ∈ tracks ∧ out.trackIndex = tracks.idxOf p.trackIndex % 2 ^ 32 := by
  rw [route_select ha, map_eq_some_iff] at hr
  obtain ⟨k, hk, rfl⟩ := hr
  have hmem : p.trackIndex ∈ tracks := by
    by_contra hnot
    rw [idxOf?_eq_none_iff.mpr hnot] at hk
    cases hk
  obtain rfl := Option.some.inj ((idxOf?_of_mem hmem).symm.trans hk)
  exact ⟨hmem, toNat_ofNat⟩

variable (hstarts : (List.range inputTracks.length).filter (· ∈ tracks) <+: tracks)

include hstarts

theorem positions_idxOf (hi : i < inputTracks.length) (hmem : i ∈ tracks) :
    tracks.idxOf i < inputTracks.length ∧
      ((range inputTracks.length).filter (· ∈ tracks))[tracks.idxOf i]? = some i := by
  have hp : i ∈ (range inputTracks.length).filter (· ∈ tracks) :=
    mem_filter.mpr ⟨mem_range.mpr hi, decide_eq_true hmem⟩
  obtain ⟨rest, ht⟩ := hstarts
  have hs : tracks.idxOf i = ((range inputTracks.length).filter (· ∈ tracks)).idxOf i := by
    conv_lhs => rw [← ht]
    exact idxOf_append_of_mem hp
  rw [hs]
  have hlt := idxOf_lt_length_iff.mpr hp
  have hle := length_filter_le (· ∈ tracks) (range inputTracks.length)
  rw [length_range] at hle
  exact ⟨Nat.lt_of_lt_of_le hlt hle, getElem?_idxOf hp⟩

theorem agree_of_starts (hc : inputTracks.length ≤ 2 ^ 32) : Agree tracks inputTracks where
  packets i input hin p ha ht := by
    subst ht
    have hi : p.trackIndex < inputTracks.length := (List.getElem?_eq_some_iff.mp hin).1
    by_cases hmem : p.trackIndex ∈ tracks
    · obtain ⟨hlt, hget⟩ := positions_idxOf hstarts hi hmem
      have hnat : (ofNat (tracks.idxOf p.trackIndex)).toNat = tracks.idxOf p.trackIndex := by
        exact toNat_ofNat_of_lt' (by change _ < 2 ^ 32; omega)
      have hs := selected_getElem? hin hget
      refine .inr ⟨ofNat (tracks.idxOf p.trackIndex), ?_, ?_, ?_⟩
      · rw [route_select ha, idxOf?_of_mem hmem]
        rfl
      · rw [hnat, hs]
      · rw [hnat, applyAudioRouting_select, getElem?_map, getElem?_zipIdx, hs]
        simp only [map_some, entry, Nat.zero_add]
    · refine .inl ⟨?_, fun t ht => hmem (mem_selected.mp ht).2⟩
      rw [route_select ha, idxOf?_eq_none_iff.mpr hmem]
      rfl
  distinct p p' out out' ha ha' hi hi' hr hr' heq := by
    obtain ⟨hmem, hout⟩ := exists_idxOf_of_route ha hr
    obtain ⟨hmem', hout'⟩ := exists_idxOf_of_route ha' hr'
    obtain ⟨hlt, -⟩ := positions_idxOf hstarts hi hmem
    obtain ⟨hlt', -⟩ := positions_idxOf hstarts hi' hmem'
    rw [hout, hout', Nat.mod_eq_of_lt (by omega), Nat.mod_eq_of_lt (by omega)] at heq
    exact (idxOf_inj hmem).mp heq

omit hstarts in
theorem starts_of_agree (hl : tracks.length ≤ 2 ^ 32) (h : Agree tracks inputTracks) :
    (range inputTracks.length).filter (· ∈ tracks) <+: tracks := by
  refine prefix_iff_getElem?.mpr fun k hk => ?_
  have hget : ((range inputTracks.length).filter (· ∈ tracks))[k]? =
      some ((range inputTracks.length).filter (· ∈ tracks))[k] := getElem?_eq_getElem hk
  generalize ((range inputTracks.length).filter (· ∈ tracks))[k] = i at hget ⊢
  obtain ⟨hi, hmem⟩ := mem_filter.mp (mem_of_getElem? hget)
  have hin := getElem?_eq_getElem (mem_range.mp hi)
  have hmem : i ∈ tracks := of_decide_eq_true hmem
  rcases h.packets i _ hin { raw .audio false 0 with trackIndex := i } rfl rfl with
    ⟨hd, -⟩ | ⟨o, hr, hs, -⟩
  · rw [route_select rfl, idxOf?_of_mem hmem] at hd
    cases hd
  · obtain ⟨-, hout⟩ := exists_idxOf_of_route rfl hr
    have hlt : tracks.idxOf i < 2 ^ 32 := Nat.lt_of_lt_of_le (idxOf_lt_length_iff.mpr hmem) hl
    have ho : o.toNat = tracks.idxOf i := hout.trans (Nat.mod_eq_of_lt hlt)
    have hp : ((range inputTracks.length).filter (· ∈ tracks))[o.toNat]? = some i := by
      rw [← map_snd_selected, getElem?_map, hs]
      rfl
    have hk' : o.toNat = k := by
      have hn := nodup_positions tracks inputTracks.length
      exact (List.getElem?_inj (List.getElem?_eq_some_iff.mp hp).1 hn).mp (hp.trans hget.symm)
    rw [← hk', ho]
    exact getElem?_idxOf hmem

end Selection

/-- Packets and track list agree exactly for the lists that start with their input tracks
in increasing order, whatever repeats or is out of range coming after. -/
theorem track_selection_agrees (tracks : List Nat) (inputTracks : List AudioMeta)
    (hnumbered : ∀ (i : Nat) (input : AudioMeta), inputTracks[i]? = some input →
      input.trackIndex.toNat = i) :
    applyAudioRouting (.selectTracks tracks) inputTracks =
      (selected tracks inputTracks).zipIdx.map entry ∧
    ((List.range inputTracks.length).filter (· ∈ tracks) <+: tracks → Agree tracks inputTracks) ∧
    (tracks.length ≤ 2 ^ 32 → Agree tracks inputTracks →
      (List.range inputTracks.length).filter (· ∈ tracks) <+: tracks) := by
  have hcount : inputTracks.length ≤ 2 ^ 32 := by
    by_contra hlarge
    obtain ⟨last, hlast⟩ : ∃ last, inputTracks[2 ^ 32]? = some last :=
      ⟨_, List.getElem?_eq_getElem (Nat.lt_of_not_le hlarge)⟩
    have hnumber := hnumbered _ last hlast
    have hlt := last.trackIndex.toNat_lt
    omega
  exact ⟨applyAudioRouting_select tracks inputTracks, fun hstarts => agree_of_starts hstarts hcount,
    starts_of_agree⟩

section Lists

def stereo (trackIndex : UInt32) (title : String) : AudioMeta :=
  { codec := "aac", sampleRate := 48000, channels := 2, channelLayout := none, trackIndex, pid := none
    language := none, title := some title, profile := none }

def threeTracks : List AudioMeta := [stereo 0 "main", stereo 1 "crowd", stereo 2 "comments"]

theorem track_selection_agrees_sorted :
    (∀ (i : Nat) (input : AudioMeta), threeTracks[i]? = some input →
    input.trackIndex.toNat = i) ∧ Agree [0, 2, 2, 9] threeTracks := by
  have hnumbered : ∀ (i : Nat) (input : AudioMeta), threeTracks[i]? = some input →
      input.trackIndex.toNat = i := by
    intro i input hinput
    match i with
    | 0 | 1 | 2 => obtain rfl := Option.some.inj hinput; rfl
    | _ + 3 => cases hinput
  exact ⟨hnumbered, (track_selection_agrees [0, 2, 2, 9] threeTracks hnumbered).2.1 (by decide)⟩

/-- The packets of track 1 come out as track 0, whose entry describes track 0. -/
theorem track_selection_swapped : ¬Agree [1, 0] threeTracks := by
  intro h
  rcases h.packets 1 (stereo 1 "crowd") rfl { raw .audio false 0 with trackIndex := 1 } rfl rfl with
    ⟨hdrop, -⟩ | ⟨o, hroute, hselected, -⟩
  · exact absurd hdrop (by decide)
  · have ho : 0 = o.toNat := congrArg trackIndex (Option.some.inj hroute)
    rw [← ho] at hselected
    exact absurd (congrArg Prod.snd (Option.some.inj hselected)) (by decide)

end Lists

end Restream.AudioRouter
