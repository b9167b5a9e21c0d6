import Restream.TsTopology
import Restream.Exec
import Restream.TopologyRun

/-! Video access units of the demuxer: over a whole run the payload of a video packet is all
of the PES payload that its transport packets carry, as long as its PID leads to its
stream, its header is not split and the buffer suffices. -/

namespace Restream.Mpegts

open Codec List Option PesAccumulator Exec

variable {π : Type}

def pesBody : List UInt8 → Option (Option Nat × List UInt8)
  | 0x00 :: 0x00 :: 0x01 :: _ :: lenHigh :: lenLow :: _ :: _ :: headerLen :: header =>
    if headerLen.toNat ≤ header.length then
      some (pesPayloadLen (lenHigh.toNat * 2 ^ 8 + lenLow.toNat) headerLen.toNat,
        header.drop headerLen.toNat)
    else none
  | _ => none

def accessUnit (packets : List TsPayload) : Option (List UInt8) :=
  (pesBody (packets.flatMap TsPayload.payload)).map fun body =>
    match body.1 with
    | none => body.2
    | some len => body.2.take len

def headerWithin : List UInt8 → Bool
  | 0x00 :: 0x00 :: 0x01 :: _ :: _ :: _ :: _ :: _ :: headerLen :: header =>
    headerLen.toNat ≤ header.length
  | _ => true

theorem pesBody_append (h : pesBody bs = some (len, body)) :
    pesBody (bs ++ more) = some (len, body ++ more) := by
  unfold pesBody at h
  split at h
  · obtain ⟨hle, hb⟩ := ite_none_right_eq_some.mp h
    obtain ⟨rfl, rfl⟩ := Prod.mk.inj (Option.some.inj hb)
    simp only [cons_append, pesBody]
    rw [if_pos (by rw [length_append]; omega), drop_append_of_le_length hle]
  · cases h

def extendUnit (packets : List TsPayload) (p : TsPayload) : List TsPayload :=
  if p.payloadUnitStart then [p] else packets ++ [p]

namespace PesAccumulator

def Holds (pes : PesAccumulator) (packets : List TsPayload) : Prop :=
  pes.hasTimestamp = true →
    pesBody (packets.flatMap TsPayload.payload) = some (pes.expectedPayloadLen, pes.buf) ∧
      ∀ len ∈ pes.expectedPayloadLen, pes.buf.length < len

theorem holds_of_idle {pes : PesAccumulator} (h : pes.hasTimestamp = false) (ps : List TsPayload) :
    pes.Holds ps := by
  intro ht
  cases h.symm.trans ht

theorem expectedPayloadLen_withTimestamps (pes : PesAccumulator) (has ha : Bool) (hdr : List UInt8) :
    (pes.withTimestamps has ha hdr).expectedPayloadLen = pes.expectedPayloadLen ∧
      (pes.withTimestamps has ha hdr).buf = pes.buf := by
  unfold withTimestamps
  split <;> split <;> (try split) <;> exact ⟨rfl, rfl⟩

theorem begin_body {pes started : PesAccumulator} (hbuf : pes.buf = []) (hw : headerWithin pay = true)
    (hf : pay.length ≤ maxPesBuffer) (h : pes.begin ra pay = some started) :
    pesBody pay = some (started.expectedPayloadLen, started.buf) := by
  unfold begin at h
  split at h <;> cases h
  · next lenHigh lenLow _ pesFlags he hdr =>
    have hen : he.toNat ≤ hdr.length := of_decide_eq_true hw
    have hlen : (hdr.drop he.toNat).length ≤ maxPesBuffer := by
      simp only [length_cons] at hf
      rw [length_drop]
      omega
    obtain ⟨hex, hem⟩ := expectedPayloadLen_withTimestamps { pes with
        randomAccess := ra
        expectedPayloadLen := pesPayloadLen (lenHigh.toNat * 2 ^ 8 + lenLow.toNat) he.toNat }
      (pesFlags &&& 0x80 ≠ 0) (pesFlags &&& 0x40 ≠ 0) hdr
    rw [pesBody, if_pos hen, appendBounded, hem.trans hbuf,
      if_pos (by rw [length_nil, Nat.zero_add]; exact hlen)]
    rw [hex]
    rfl

end PesAccumulator

namespace StreamInfo

variable {s : StreamInfo}

section
variable (hv : s.kind.mediaType = .video)
include hv

theorem flushPes_idles : s.flushPes.1.pes.hasTimestamp = false ∧
    s.flushPes.2.1 =
      if s.pes.buf = [] ∨ s.pes.hasTimestamp = false then [] else [s.unit s.pes.buf] := by
  have hk : s.kind ≠ .aacAdts := by
    intro ha
    rw [ha] at hv
    cases hv
  unfold flushPes
  simp only [hk, if_false, decide_false, Bool.or_false, Bool.not_eq_true']
  split <;> exact ⟨rfl, rfl⟩

theorem flushPes_whole (hh : s.pes.Holds ps) :
    ∀ q ∈ s.flushPes.2.1, accessUnit ps = some q.payload := by
  intro q hq
  rw [(flushPes_idles hv).2] at hq
  split at hq
  · cases hq
  · next hl =>
    obtain rfl := mem_singleton.mp hq
    obtain ⟨hb, hs⟩ := hh ((Bool.not_eq_false _).mp fun h => hl (.inr h))
    rw [accessUnit, hb, map_some]
    cases hlen : s.pes.expectedPayloadLen with
    | none => rfl
    | some len =>
      have ht : s.pes.buf.take len = s.pes.buf := take_of_length_le (hs len hlen).le
      dsimp only
      rw [ht]
      rfl

theorem complete_whole (hb : s.pes.hasTimestamp = true →
      pesBody (ps.flatMap TsPayload.payload) = some (s.pes.expectedPayloadLen, s.pes.buf)) :
    s.complete.1.pes.Holds ps ∧ ∀ q ∈ s.complete.2, accessUnit ps = some q.payload := by
  cases hlen : s.pes.expectedPayloadLen with
  | none =>
    rw [complete_none hlen]
    refine ⟨fun ht => ⟨hb ht, ?_⟩, by simp⟩
    intro len hs
    rw [hlen] at hs
    cases hs
  | some len =>
    rw [complete_some hlen]
    split
    · obtain ⟨hi, he⟩ :=
        flushPes_idles (s := { s with pes := { s.pes with buf := s.pes.buf.take len } }) hv
      refine ⟨holds_of_idle hi ps, fun q hq => ?_⟩
      rw [he] at hq
      split at hq
      · cases hq
      · next hl =>
        obtain rfl := mem_singleton.mp hq
        rw [accessUnit, hb ((Bool.not_eq_false _).mp fun h => hl (.inr h)), hlen]
        rfl
    · next hsh =>
      refine ⟨fun ht => ⟨hb ht, fun len' hs => ?_⟩, by simp⟩
      obtain rfl := Option.some.inj (hlen.symm.trans hs)
      exact Nat.lt_of_not_le hsh

end

def ended (s : StreamInfo) (p : TsPayload) : List MediaPacket :=
  if p.payloadUnitStart then s.flushPes.2.1 else []

def Accepts (s : StreamInfo) (p : TsPayload) : Prop :=
  if p.payloadUnitStart then headerWithin p.payload = true
  else s.pes.hasTimestamp = true → s.pes.buf.length + p.payload.length ≤ maxPesBuffer

theorem receive_ended (s : StreamInfo) (p : TsPayload) :
    (s.receive p).2 = s.ended p ++ (s.receive p).2.drop (s.ended p).length := by
  have hp : ∃ rest, (s.receive p).2 = s.ended p ++ rest := by
    unfold receive ended
    split
    · dsimp only
      split
      · exact ⟨[], (append_nil _).symm⟩
      · exact ⟨_, rfl⟩
    · exact ⟨_, rfl⟩
  obtain ⟨rest, hr⟩ := hp
  rw [hr, drop_left]

theorem receive_whole (hv : s.kind.mediaType = .video) (hh : s.pes.Holds ps) (ha : s.Accepts p)
    (hsi : p.payload.length ≤ maxPesBuffer) : (s.receive p).1.pes.Holds (extendUnit ps p) ∧
      ∀ q ∈ (s.receive p).2.drop (s.ended p).length, accessUnit (extendUnit ps p) =
        some q.payload := by
  unfold Accepts at ha
  unfold receive ended extendUnit
  split
  · next hs =>
    rw [if_pos hs] at ha
    dsimp only
    have hi := (flushPes_idles hv).1
    have he := flushPes_buf s
    have hk : s.flushPes.1.kind.mediaType = .video := by rw [(flushPes_same s).kind_eq, hv]
    split
    · exact ⟨holds_of_idle hi _, by simp⟩
    · next pes hb =>
      rw [drop_left]
      refine complete_whole (s := { s.flushPes.1 with pes := pes }) hk fun _ => ?_
      rw [flatMap_singleton]
      exact begin_body he ha hsi hb
  · next hs =>
    rw [if_neg hs] at ha
    refine complete_whole (s := { s with pes := s.pes.appendBounded p.payload }) hv fun ht => ?_
    rw [appendBounded] at ht ⊢
    split at ht
    · next hf =>
      rw [if_pos hf, flatMap_append, flatMap_singleton]
      exact pesBody_append (hh ht).1
    · next hfu => exact (hfu (ha ht)).elim

end StreamInfo

open PacketDemuxer StreamInfo Function

variable {π : Type}

/-- The demuxer, the payloads of each PID since its last unit start, and every packet it
has emitted with the transport payloads of its PES. -/
structure UnitRun (π : Type) where
  demuxer : PacketDemuxer π
  since : Nat → List TsPayload
  units : List (MediaPacket × List TsPayload)

/-- Every video packet is the whole access unit of its transport packets. -/
def WholeUnits (units : List (MediaPacket × List TsPayload)) : Prop :=
  ∀ u ∈ units, u.1.mediaType = .video → accessUnit u.2 = some u.1.payload

theorem WholeUnits.append (h : WholeUnits units) (hm : WholeUnits more) :
    WholeUnits (units ++ more) := by
  intro u hu
  rcases mem_append.mp hu with hu | hu
  · exact h u hu
  · exact hm u hu

namespace UnitRun

variable {prober : Prober π}

def start : UnitRun π := { demuxer := .new, since := fun _ => [], units := [] }

def emitted (before after : PacketDemuxer π) (packets : List TsPayload) :
    List (MediaPacket × List TsPayload) :=
  (after.output.drop before.output.length).map fun packet => (packet, packets)

def flushStream (prober : Prober π) (r : UnitRun π) (i : Nat) : UnitRun π :=
  match r.demuxer.streams[i]? with
  | none => r
  | some s =>
    let next := r.demuxer.flushPes prober i
    { r with demuxer := next, units := r.units ++ emitted r.demuxer next (r.since s.pid) }

def step (prober : Prober π) (r : UnitRun π) : DemuxEvent → Option (UnitRun π)
  | .packet pkt =>
    if pkt.length = tsPacketSize then
      let next := r.demuxer.processTsPacket prober pkt
      match tsPayload pkt with
      | none => some { r with demuxer := next }
      | some p =>
        let packets := extendUnit (r.since p.pid) p
        match r.demuxer.route p with
        | none => some { r with demuxer := next, since := update r.since p.pid packets }
        | some i =>
          let flushed := if p.payloadUnitStart then r.demuxer.flushPes prober i else r.demuxer
          some {
            demuxer := next
            since := update r.since p.pid packets
            units :=
              r.units ++ (emitted r.demuxer flushed (r.since p.pid) ++
                emitted flushed next packets) }
    else none
  | .flush => some ((List.range r.demuxer.streams.length).foldl (flushStream prober) r)
  | .drain => some { r with demuxer := { r.demuxer with output := [] } }

/-- A payload with the PID of a video stream goes to that stream, and the stream takes all
of it. -/
def Intact (r : UnitRun π) : DemuxEvent → Prop
  | .packet pkt => ∀ p ∈ tsPayload pkt, ∀ x ∈ r.demuxer.streams.zipIdx,
      x.1.kind.mediaType = .video → x.1.pid = p.pid → r.demuxer.route p = some x.2 ∧ x.1.Accepts p
  | _ => True

structure Inv (r : UnitRun π) : Prop where
  topology : Topology r.demuxer
  holds : ∀ s ∈ r.demuxer.streams, s.kind.mediaType = .video → s.pes.Holds (r.since s.pid)
  whole : WholeUnits r.units

variable {r : UnitRun π} {s s' : StreamInfo} {next : PacketDemuxer π} {ps : List MediaPacket}

theorem emitted_eq {pre after : PacketDemuxer π} (h : after.output = pre.output ++ ps) :
    emitted pre after pays = ps.map fun p => (p, pays) := by
  rw [emitted, h, drop_left]

theorem wholeUnits_of_stream (htag : ∀ q ∈ ps, tag q = s.tag)
    (h : s.kind.mediaType = .video → ∀ q ∈ ps, accessUnit pays = some q.payload) :
    WholeUnits (ps.map fun p => (p, pays)) := by
  intro u hu hv
  obtain ⟨q, hq, rfl⟩ := mem_map.mp hu
  have hm : q.mediaType = s.kind.mediaType := congrArg Prod.fst (htag q hq)
  exact h (hm.symm.trans hv) q hq

theorem holds_set {since : Nat → List TsPayload}
    (hse : s.kind.mediaType = .video → s'.pes.Holds (since s.pid)) (hs : s.Same s')
    (ho : ∀ (j : Nat) (t : StreamInfo), j ≠ i → r.demuxer.streams[j]? = some t →
      t.kind.mediaType = .video →
      t.pes.Holds (since t.pid)) :
    ∀ t ∈ r.demuxer.streams.set i s', t.kind.mediaType = .video → t.pes.Holds (since t.pid) := by
  intro t ht hv
  obtain ⟨j, hj⟩ := getElem?_of_mem ht
  rw [getElem?_set] at hj
  split at hj
  · obtain ⟨-, hset⟩ := ite_none_right_eq_some.mp hj
    cases hset
    have hpid : s'.pid = s.pid := by rw [hs]
    rw [hpid]
    exact hse (hs.kind_eq ▸ hv)
  · next hji => exact ho j t (Ne.symm hji) hj hv

variable (h : r.Inv)
include h

theorem Inv.flushStream (prober : Prober π) (i : Nat) : (r.flushStream prober i).Inv := by
  unfold UnitRun.flushStream
  cases hs : r.demuxer.streams[i]? with
  | none => exact h
  | some s =>
    have hc : (r.demuxer.flushPes prober i).core = _ := core_flushPes hs
    have hst : (r.demuxer.flushPes prober i).streams = r.demuxer.streams.set i s.flushPes.1 :=
      congrArg DemuxCore.streams hc
    have ho : (r.demuxer.flushPes prober i).output = r.demuxer.output ++ s.flushPes.2.1 :=
      congrArg DemuxCore.output hc
    have hmem := mem_of_getElem? hs
    refine ⟨h.topology.flushPes prober i, ?_, h.whole.append ?_⟩
    · rw [hst]
      refine holds_set (fun hv => ?_) (flushPes_same s)
        fun j t _ hj => h.holds t (mem_of_getElem? hj)
      exact holds_of_idle (flushPes_idles hv).1 _
    · rw [emitted_eq ho]
      exact wholeUnits_of_stream (flushPes_pushed _) fun hv =>
        flushPes_whole hv (h.holds s hmem hv)

theorem Inv.flushStreams (prober : Prober π) (indexes : List Nat) :
    (indexes.foldl (UnitRun.flushStream prober) r).Inv := by
  induction indexes generalizing r with
  | nil => exact h
  | cons i indexes ih => exact ih (h.flushStream prober i)

theorem Inv.receive {p : TsPayload} (hsi : p.payload.length ≤ maxPesBuffer)
    (hr : r.demuxer.route p = some i) (hi : ∀ x ∈ r.demuxer.streams.zipIdx,
      x.1.kind.mediaType = .video → x.1.pid = p.pid → r.demuxer.route p = some x.2 ∧ x.1.Accepts p)
    (hn : next = r.demuxer.receive prober i p) (hto : Topology next) :
    ({ demuxer := next
       since := update r.since p.pid (extendUnit (r.since p.pid) p)
       units := r.units ++
        (emitted r.demuxer (if p.payloadUnitStart then r.demuxer.flushPes prober i else r.demuxer)
          (r.since p.pid) ++
          emitted (if p.payloadUnitStart then r.demuxer.flushPes prober i else r.demuxer) next
            (extendUnit (r.since p.pid) p)) } : UnitRun π).Inv := by
  obtain ⟨s, hs, hpid⟩ := exists_routed h.topology hr
  have hmem := mem_of_getElem? hs
  have hc : next.core = r.demuxer.core.emit i (s.receive p).1 (s.receive p).2 := by
    rw [hn]
    exact core_receive hs p
  have hst : next.streams = r.demuxer.streams.set i (s.receive p).1 := congrArg DemuxCore.streams hc
  obtain ⟨hsa, htag⟩ := s.receive_spec p
  rw [s.receive_ended p, forall_mem_append] at htag
  have hf : (if p.payloadUnitStart then r.demuxer.flushPes prober i else r.demuxer).output =
      r.demuxer.output ++ s.ended p := by
    unfold ended
    split
    · exact congrArg DemuxCore.output (core_flushPes hs)
    · exact (append_nil _).symm
  have ho : next.output = (if p.payloadUnitStart then r.demuxer.flushPes prober i
    else r.demuxer).output ++
      (s.receive p).2.drop (s.ended p).length := by
    rw [hf, append_assoc, ← s.receive_ended p]
    exact congrArg DemuxCore.output hc
  have hk (hv : s.kind.mediaType = .video) := receive_whole hv (h.holds s hmem hv)
    (hi (s, i) (mem_zipIdx_iff_getElem?.mpr hs) hv hpid).2 hsi
  rw [hpid] at hk
  refine ⟨hto, ?_, h.whole.append (.append ?_ ?_)⟩
  · dsimp only
    rw [hst]
    refine holds_set (fun hv => ?_) hsa fun j t hji ht hv => ?_
    · rw [hpid, update_self]
      exact (hk hv).1
    · have hot : t.pid ≠ p.pid := by
        intro hsh
        have hro := (hi (t, j) (mem_zipIdx_iff_getElem?.mpr ht) hv hsh).1
        exact hji (Option.some.inj (hro.symm.trans hr))
      rw [update_of_ne hot]
      exact h.holds t (mem_of_getElem? ht) hv
  · rw [emitted_eq hf]
    refine wholeUnits_of_stream htag.1 fun hv q hq => ?_
    unfold ended at hq
    split at hq
    · rw [← hpid]
      exact flushPes_whole hv (h.holds s hmem hv) q hq
    · cases hq
  · rw [emitted_eq ho]
    exact wholeUnits_of_stream htag.2 fun hv => (hk hv).2

theorem Inv.table (hro : r.demuxer.route p = none)
    (hi : ∀ x ∈ r.demuxer.streams.zipIdx, x.1.kind.mediaType = .video → x.1.pid = p.pid →
      r.demuxer.route p = some x.2 ∧ x.1.Accepts p)
    (hto : Topology next)
    (hso : ∀ t ∈ next.streams, t.pes = .new ∨
      ∃ old ∈ r.demuxer.streams, old.pid = t.pid ∧ old.kind = t.kind ∧ t.pes = old.pes) :
    ({ r with
      demuxer := next
      since := update r.since p.pid (extendUnit (r.since p.pid) p) } : UnitRun π).Inv := by
  refine ⟨hto, fun t ht hv => ?_, h.whole⟩
  rcases hso t ht with hnew | ⟨old, hold, hpid, hk, hpes⟩
  · refine holds_of_idle ?_ _
    rw [hnew]
    rfl
  · rw [← hk] at hv
    have ho : t.pid ≠ p.pid := by
      intro hs
      obtain ⟨j, hj⟩ := getElem?_of_mem hold
      have hr := (hi (old, j) (mem_zipIdx_iff_getElem?.mpr hj) hv (hpid.trans hs)).1
      cases hr.symm.trans hro
    dsimp only
    rw [update_of_ne ho, hpes, ← hpid]
    exact h.holds old hold hv

theorem Inv.step (hi : r.Intact e) (hs : UnitRun.step prober r e = some r') : r'.Inv := by
  cases e with
  | packet pkt =>
    obtain ⟨hsi, hs⟩ := ite_none_right_eq_some.mp hs
    rw [processTsPacket] at hs
    cases hp : tsPayload pkt with
    | none =>
      rw [hp] at hs
      cases hs
      exact h
    | some p =>
      rw [hp] at hs
      dsimp only at hs
      have hk := h.topology.processPayload prober p
      rcases processPayload_cases prober r.demuxer p with ⟨i, hr, hn⟩ | ⟨hr, hta⟩
      · have hf : p.payload.length ≤ maxPesBuffer := (length_tsPayload hp).trans (by rw [hsi]; decide)
        rw [hr] at hs
        cases hs
        exact h.receive hf hr (hi p hp) hn hk
      · rw [hr] at hs
        cases hs
        refine h.table hr (hi p hp) hk ?_
        rcases hta with ⟨pmtPid, buf, ex, hn⟩ | ⟨lay, es, buf, ex, -, hn⟩ <;> rw [hn]
        · exact fun t ht => .inr ⟨t, ht, rfl, rfl, rfl⟩
        · exact fun t ht => (h.topology.carriesOver_installPmt prober lay es).exists_old
            (Topology.installPmt prober r.demuxer lay es) ht
  | flush =>
    cases hs
    exact h.flushStreams prober _
  | drain =>
    cases hs
    exact ⟨h.topology.of_eq rfl rfl rfl, h.holds, h.whole⟩

end UnitRun

/-- Every video packet of a run is whole, if no transport packet meets a split PES header,
a full buffer or a PID that leads elsewhere. -/
theorem video_units_whole (prober : Prober π) {r : UnitRun π}
    (h : Reachable (UnitRun.step prober) UnitRun.Intact UnitRun.start r) : WholeUnits r.units :=
  (h.invariant UnitRun.Inv (fun _ _ _ hinv hguard hstep => hinv.step hguard hstep)
    ⟨topology_new, by simp [UnitRun.start, PacketDemuxer.new], by simp [WholeUnits, UnitRun.start]⟩).whole

instance (units : List (MediaPacket × List TsPayload)) : Decidable (WholeUnits units) :=
  inferInstanceAs (Decidable (∀ u ∈ units, _ → _))

instance (s : StreamInfo) (p : TsPayload) : Decidable (s.Accepts p) := by
  unfold Accepts
  infer_instance

instance (r : UnitRun π) (e : DemuxEvent) : Decidable (r.Intact e) := by
  unfold UnitRun.Intact
  split <;> infer_instance

def unitStart (headerLen : UInt8) : List UInt8 :=
  [0x47, 0x41, 0x00, 0x10, 0, 0, 1, 0xE0, 0, 0, 0x80, 0x80, headerLen, 0x21, 0, 1, 0, 1] ++
    List.replicate 170 0xAA

def continuation : List UInt8 := [0x47, 0x01, 0x00, 0x10] ++ List.replicate 184 0xAA

def oneVideoTable : List DemuxEvent :=
  [.packet programPacket, .packet (mapPacket [(streamTypeH264, 0)])]

theorem video_units_whole_two_packets : ∃ r : UnitRun Unit,
    Reachable (UnitRun.step noProber) UnitRun.Intact UnitRun.start r ∧
      r.units.map (fun u => u.1.payload.length) = [354] ∧ WholeUnits r.units :=
  exists_reachable_and
    (oneVideoTable ++ [.packet (unitStart 5), .packet continuation, .packet (unitStart 5)])
    (by decide +kernel) fun _ hr _ => video_units_whole noProber hr

section Oversized

open UnitRun

/-- After `n` packets more of one PES the buffer has stopped growing at its bound. -/
structure Filling (n : Nat) (r : UnitRun Unit) : Prop where
  pmtPid : r.demuxer.pmtPid = some 0x1000
  routed : r.demuxer.pidToStream 0x100 = some 0
  stream : ∃ s, r.demuxer.streams = [s] ∧ s.pid = 0x100 ∧ s.kind = .h264 ∧ s.pes.hasTimestamp = true ∧
    s.pes.expectedPayloadLen = none ∧ s.pes.buf.length = 170 + 184 * min n 2848
  since : ∃ body, pesBody ((r.since 0x100).flatMap TsPayload.payload) = some (none, body) ∧
    body.length = 170 + 184 * n

def started : StreamInfo :=
  { pid := 0x100
    kind := .h264
    trackIndex := 0
    language := none
    pes := { PesAccumulator.new with buf := List.replicate 170 0xAA, hasTimestamp := true } }

theorem exists_filling_zero : ∃ r, Reachable (step noProber) anyLabel start r ∧ Filling 0 r :=
  exists_reachable_of_observed (oneVideoTable ++ [.packet (unitStart 5)])
    (fun r => r.demuxer.pmtPid = some 0x1000 ∧ r.demuxer.pidToStream 0x100 = some 0 ∧
      r.demuxer.streams = [started] ∧
      pesBody ((r.since 0x100).flatMap TsPayload.payload) = some (none, replicate 170 0xAA))
    (by decide +kernel) fun _ _ ⟨hpmt, hro, hs, hb⟩ =>
      ⟨hpmt, hro, ⟨started, hs, rfl, rfl, rfl, rfl, length_replicate⟩, _, hb, length_replicate⟩

theorem Filling.next (h : Filling n r) : ∃ r',
    step noProber r (.packet continuation) = some r' ∧ Filling (n + 1) r' := by
  obtain ⟨s, hst, hpid, hk, ht, he, hbuf⟩ := h.stream
  obtain ⟨body, hb, hl⟩ := h.since
  have hs : r.demuxer.streams[0]? = some s := by rw [hst]; rfl
  obtain ⟨p, hp, hpp, hps, hpl⟩ : ∃ p, tsPayload continuation = some p ∧ p.pid = 0x100 ∧
      p.payloadUnitStart = false ∧ p.payload.length = 184 :=
        ⟨_, rfl, by decide, by decide, by decide +kernel⟩
  have hro : r.demuxer.route p = some 0 := by
    rw [route, hpp, h.pmtPid, if_neg (by decide), h.routed]
  have hn : r.demuxer.processTsPacket noProber continuation = r.demuxer.receive noProber 0 p := by
    rw [processTsPacket, hp]
    dsimp only
    rw [processPayload, hpp, h.pmtPid, if_neg (by decide), if_neg (by decide), h.routed]
  have hc : (r.demuxer.receive noProber 0 p).core = _ := core_receive hs p
  have hr : s.receive p = ({ s with pes := s.pes.appendBounded p.payload }, []) := by
    have hno : (s.pes.appendBounded p.payload).expectedPayloadLen = none := by
      unfold appendBounded
      split <;> exact he
    rw [StreamInfo.receive, if_neg (by rw [hps]; decide)]
    exact complete_none hno
  rw [hr, ← hn] at hc
  refine ⟨_, by rw [step, if_pos (by decide +kernel), hp]; dsimp only; rw [hro], ?_, ?_, ?_, ?_⟩
  · exact (congrArg DemuxCore.pmtPid hc).trans h.pmtPid
  · exact (congrFun (congrArg DemuxCore.pidToStream hc) 0x100).trans h.routed
  · refine ⟨{ s with pes := s.pes.appendBounded p.payload }, ?_, hpid, hk, ?_, ?_, ?_⟩
    · have hset := congrArg DemuxCore.streams hc
      rw [DemuxCore.emit] at hset
      exact hset.trans (by simp [core, hst])
    · unfold appendBounded
      split <;> exact ht
    · unfold appendBounded
      split <;> exact he
    · unfold appendBounded
      split
      · next hf =>
        rw [length_append]
        unfold maxPesBuffer at hf
        omega
      · next hfu =>
        rw [hbuf]
        unfold maxPesBuffer at hfu
        omega
  · refine ⟨body ++ p.payload, ?_, by rw [length_append]; omega⟩
    dsimp only
    rw [hpp, update_self, extendUnit, if_neg (by rw [hps]; decide), flatMap_append,
      flatMap_singleton]
    exact pesBody_append hb

theorem exists_filling (n : Nat) : ∃ r, Reachable (step noProber) anyLabel start r ∧ Filling n r := by
  induction n with
  | zero => exact exists_filling_zero
  | succ n ih =>
    obtain ⟨r, hr, hf⟩ := ih
    obtain ⟨r', hs, hn⟩ := hf.next
    exact ⟨r', hr.tail ⟨_, trivial, hs⟩, hn⟩

/-- A unit above the bound of the buffer is emitted without the part that did not fit. -/
theorem exists_truncated : ∃ r : UnitRun Unit, Reachable (step noProber) anyLabel start r ∧
    ∃ u ∈ r.units, u.1.mediaType = .video ∧ ∃ whole, accessUnit u.2 = some whole ∧
      maxPesBuffer < whole.length ∧ u.1.payload.length < whole.length := by
  obtain ⟨r, hr, hf⟩ := exists_filling 2849
  obtain ⟨s, hst, hpid, hk, ht, hex, hbuf⟩ := hf.stream
  obtain ⟨body, hb, hl⟩ := hf.since
  have hs : r.demuxer.streams[0]? = some s := by rw [hst]; rfl
  have hv : s.kind.mediaType = .video := by rw [hk]; rfl
  have hlo : s.pes.buf ≠ [] := by
    intro he
    rw [he] at hbuf
    cases hbuf
  have hp : s.flushPes.2.1 = [s.unit s.pes.buf] := by
    rw [(flushPes_idles hv).2, if_neg (by simp [hlo, ht])]
  have ho : (r.demuxer.flushPes noProber 0).output = r.demuxer.output ++ [s.unit s.pes.buf] := by
    rw [← hp]
    exact congrArg DemuxCore.output (core_flushPes hs)
  refine ⟨_, hr.tail ⟨.flush, trivial, rfl⟩, (s.unit s.pes.buf, r.since 0x100),
    ?_, hv, body, ?_, ?_, ?_⟩
  · rw [hst]
    change _ ∈ (UnitRun.flushStream noProber r 0).units
    unfold UnitRun.flushStream
    rw [hs]
    dsimp only
    rw [emitted_eq ho, hpid]
    exact mem_append_right _ mem_cons_self
  · rw [accessUnit, hb]
    rfl
  · rw [hl]
    decide
  · rw [hl]
    change s.pes.buf.length < _
    rw [hbuf]
    decide

end Oversized

/-- Units that are emitted in part: one above the bound of the buffer; one whose header
goes on in its second packet, which counts as payload; and one whose PID is taken for that
of the map table for a while. -/
theorem partial_units_emitted :
    (∃ r : UnitRun Unit, Reachable (UnitRun.step noProber) anyLabel UnitRun.start r ∧
      ∃ u ∈ r.units, u.1.mediaType = .video ∧ ∃ whole, accessUnit u.2 = some whole ∧
        maxPesBuffer < whole.length ∧ u.1.payload.length < whole.length) ∧
    (∃ r : UnitRun Unit, Reachable (UnitRun.step noProber) anyLabel UnitRun.start r ∧
      r.units.map (fun u => (u.1.payload.length, (accessUnit u.2).map List.length)) =
        [(184, some 179)]) ∧
    ∃ r : UnitRun Unit, Reachable (UnitRun.step noProber) anyLabel UnitRun.start r ∧
      r.units.map (fun u => (u.1.payload.length, (accessUnit u.2).map List.length)) =
        [(354, some 538)] :=
  ⟨exists_truncated,
    exists_reachable_of_run
      (oneVideoTable ++ [.packet (unitStart 180), .packet continuation, .flush]) (by decide +kernel),
    exists_reachable_of_run
      (oneVideoTable ++ [.packet (unitStart 5),
        .packet (tablePacket 0x00 0x00 [0x00, 0xB0, 13, 0, 1, 0xC1, 0, 0, 0, 1, 0xE1, 0x00]),
        .packet continuation, .packet programPacket, .packet continuation, .flush])
          (by decide +kernel)⟩

end Restream.Mpegts
