import Restream.UploadSteps

/-! What a server sees of an HLS PUT output follows the ingest rules. -/

namespace Restream.HlsUpload

open List Option UploadPolicy AckedSegment Nat Exec

namespace UploadPolicy

section

variable (p : UploadPolicy)

include p

theorem capBacklog_length (pending : List PendingSegment) :
    (p.capBacklog pending).pending.length ≤ maxPendingSegments := by
  induction pending generalizing p with
  | nil => simp [capBacklog]
  | cons front rest ih =>
    unfold capBacklog
    split
    · exact ih _
    · next hs => exact Nat.le_of_not_lt hs

theorem sendPending_length (now : Nat) (pending : List PendingSegment) :
    (p.sendPending now pending).1.pending.length ≤ pending.length := by
  induction pending generalizing p with
  | nil =>
    unfold sendPending
    split <;> exact le_refl 0
  | cons front rest ih =>
    unfold sendPending
    split
    · exact le_succ_of_le (ih _)
    · exact le_refl _

theorem next_length (now : Nat) : (p.next now).1.pending.length ≤ p.pending.length := by
  unfold next
  split
  · exact le_refl _
  · split
    · exact le_refl _
    · split
      · exact le_refl _
      · rcases p.send_cases now with ⟨-, -, heq⟩ | ⟨-, -, dirty, -, heq⟩
        · exact heq ▸ le_refl _
        · exact heq ▸ sendPending_length _ now p.pending

theorem popSent_length : (p.popSent seq).pending.length ≤ p.pending.length := by
  unfold popSent
  split
  · next hnil => simp
  · next front rest hc =>
    split <;> simp [hc]

theorem listAcked_pending : (p.listAcked seg).pending = p.pending := by
  rcases p.listAcked_cases seg with heq | ⟨w, -, heq⟩ <;> rw [heq]

theorem onResult_length (outcome : UploadOutcome) (now : Nat) :
    (p.onResult outcome now).1.pending.length ≤ p.pending.length := by
  unfold onResult
  split
  · exact le_refl _
  · split
    · unfold acknowledge
      split
      · rw [listAcked_pending]
        exact popSent_length _
      · exact le_refl _
    · exact le_refl _
    · unfold retry
      split <;> exact le_refl _

end

variable {p : UploadPolicy} {now : Nat} {pending : List PendingSegment} {stopped : Stopped}

theorem sendPending_put (h : (p.sendPending now pending).2 = .put req) :
    ∃ front ∈ pending, front.expired now = false ∧ req.target = .segment front.sequence ∧
      req.body = .media front.data := by
  induction pending generalizing p with
  | nil =>
    unfold sendPending at h
    split at h <;> cases h
  | cons front rest ih =>
    unfold sendPending at h
    split at h
    · obtain ⟨q, hq, hr⟩ := ih h
      exact ⟨q, mem_cons_of_mem _ hq, hr⟩
    · next hnow =>
      cases h
      exact ⟨front, mem_cons_self, by simpa using hnow, rfl, rfl⟩

theorem sendPending_stop (h : (p.sendPending now pending).2 = .stop stopped) : p.ending = true := by
  induction pending generalizing p with
  | nil =>
    unfold sendPending at h
    split at h
    · assumption
    · cases h
  | cons front rest ih =>
    unfold sendPending at h
    split at h
    · have he := ih h
      exact he
    · cases h

theorem next_put (h : (p.next now).2 = .put req) :
    p.stopped = none ∧ p.inFlight = none ∧ (p.send now).2 = .put req := by
  unfold next at h
  split at h
  · cases h
  · next hr =>
    split at h
    · cases h
    · next hi =>
      split at h
      · cases h
      · exact ⟨hr, by simpa using hi, h⟩

theorem next_stop (h : (p.next now).2 = .stop stopped) :
    p.stopped = some stopped ∨ p.ending = true ∧ p.window = [] := by
  unfold next at h
  split at h
  · next hs =>
    cases h
    exact .inl hs
  · split at h
    · cases h
    · split at h
      · cases h
      · rcases p.send_cases now with ⟨-, -, heq⟩ | ⟨-, hem, dirty, -, heq⟩ <;> rw [heq] at h
        · cases h
        · have he := sendPending_stop h
          exact .inr ⟨he, hem he⟩

end UploadPolicy

namespace UploadRun

theorem pending_le_step {r r' : UploadRun} (h : r.policy.pending.length ≤ maxPendingSegments)
    (hs : r.step e = some r') : r'.policy.pending.length ≤ maxPendingSegments := by
  cases e <;> obtain rfl := Option.some.inj hs
  case elapse millis => exact h
  case publish snapshot =>
    simp only [UploadPolicy.onPublish]
    split
    · exact h
    · split
      · exact h
      · exact capBacklog_length _ _
  case next =>
    have hle := r.policy.next_length r.now
    generalize r.policy.next r.now = result at hle
    obtain ⟨pol, answer⟩ := result
    cases answer <;> exact le_trans hle h
  case result outcome =>
    have hle := r.policy.onResult_length outcome r.now
    generalize r.policy.onResult outcome r.now = result at hle
    obtain ⟨pol, effect⟩ := result
    cases effect with
    | none => exact le_trans hle h
    | some effect => cases effect <;> exact le_trans hle h
  case finish => exact zero_le _

/-- A segment request: in order, not acknowledged before, inside the retry
window of each earlier send, and only when the window is listed. -/
structure SegmentRules (r : UploadRun) (request : UploadRequest) (sequence : Nat) : Prop where
  published : ∃ segment, r.published[sequence]? = some segment ∧ request.body = .media segment.data ∧
    ∀ send ∈ r.segmentSends, send.2 = sequence → r.now < send.1 + retryWindow segment.duration
  ordered : ∀ send ∈ r.segmentSends, send.2 ≤ sequence
  unacknowledged : sequence ∉ r.ackedSequences
  listed : ∀ s ∈ r.policy.window, ∃ c, r.lastAckedPlaylist = some c ∧ s ∈ c.segments
  unfinished : r.finished = false

/-- A playlist request: up to three acknowledged segments in sequence, under a
target duration that covers them, after every earlier playlist. -/
structure PlaylistRules (r : UploadRun) (c : Playlist) : Prop where
  nonempty : c.segments ≠ []
  length : c.segments.length ≤ playlistWindow
  consecutive : c.segments.map sequence = List.range' c.mediaSequence c.segments.length
  acknowledged : ∀ s ∈ c.segments, s.sequence ∈ r.ackedSequences ∧
    ∃ segment, r.published[s.sequence]? = some segment ∧ segment.duration = s.duration
  target : ∀ s ∈ c.segments, ceilSeconds s.duration ≤ c.targetDuration
  monotone : ∀ earlier ∈ r.playlists, earlier.mediaSequence ≤ c.mediaSequence ∧
    earlier.targetDuration ≤ c.targetDuration
  ended : c.ended = r.finished
  only : ∀ earlier ∈ r.playlists, earlier.ended = false

structure PutRules (r : UploadRun) (request : UploadRequest) : Prop where
  alone : r.outstanding = []
  running : r.stopAnswered = false
  kind : (∃ sequence, request.target = .segment sequence ∧ r.SegmentRules request sequence) ∨
    ∃ c last, request.target = .playlist last c.ended ∧ request.body = .playlist c ∧ r.PlaylistRules c

structure IngestRules (r : UploadRun) : Prop where
  outstanding : r.outstanding.length ≤ 1
  pending : r.policy.pending.length ≤ maxPendingSegments
  ackedOnce : r.ackedSequences.Nodup
  put : ∀ request, (r.policy.next r.now).2 = .put request → r.PutRules request
  ends : r.finished = true → r.playlists ≠ [] ∨ r.policy.window ≠ [] → r.policy.stopped = none →
    r.outstanding = [] → (∀ til ∈ r.policy.backoffUntil, til ≤ r.now) →
    ∃ request c, (r.policy.next r.now).2 = .put request ∧ request.body = .playlist c ∧ c.ended = true
  stops : (r.policy.next r.now).2 = .stop .ended → r.playlists ≠ [] →
    ∃ c ∈ r.playlists, c.ended = true

end UploadRun

theorem map_sequence_of_isChain {window : List AckedSegment}
    (h : window.IsChain (fun a b => b.sequence = a.sequence + 1)) :
    window.map sequence =
      range' (window.head?.elim 0 sequence) window.length := by
  induction window with
  | nil => rfl
  | cons first rest ih =>
    cases rest with
    | nil => rfl
    | cons second rest =>
      obtain ⟨hn, hr⟩ := isChain_cons_cons.mp h
      rw [map_cons, ih hr, length_cons]
      simp [hn, range'_succ]

namespace Inv

variable {r : UploadRun}

theorem segmentRules (h : Inv r) (hf : front ∈ r.policy.pending) (hnow : front.expired r.now = false)
    (hdi : r.policy.playlistDirty = true → r.policy.window = []) (hb : req.body = .media front.data) :
    r.SegmentRules req front.sequence := by
  have hw := h.queue.waiting front hf
  have hl : r.policy.ending = false := by
    rw [Bool.eq_false_iff]
    exact fun he => absurd (h.closing.drained he ▸ hf) not_mem_nil
  obtain ⟨seg, hs, hdu, hda⟩ := hw.holds
  refine ⟨⟨seg, hs, hda ▸ hb, fun send hse heq => ?_⟩, hw.inOrder, ?_, ?_, ?_⟩
  · obtain ⟨first, hfi, hle⟩ := hw.attempted send hse heq
    have hbe : r.now < first + retryWindow front.duration := by
      simpa [PendingSegment.expired, hfi] using hnow
    rw [hdu]
    omega
  · exact fun ha => absurd (hw.unacked _ ha) (lt_irrefl _)
  · cases hd : r.policy.playlistDirty with
    | true => simp [hdi hd]
    | false => exact h.closing.clean hl hd
  · exact h.closing.finished ▸ hl

theorem playlistRules (h : Inv r) (hr : r.policy.stopped = none) (hi : r.policy.inFlight = none)
    (hne : r.policy.window ≠ []) : r.PlaylistRules (r.policy.renderPlaylist r.policy.ending) where
  nonempty := hne
  length := h.window.length
  consecutive := map_sequence_of_isChain h.window.consecutive
  acknowledged s hs := ⟨(h.window.listable s hs).acked, (h.window.listable s hs).duration⟩
  target s hs := (h.window.listable s hs).ceil
  monotone c hc := by
    refine ⟨?_, (h.earlier c hc).2⟩
    obtain ⟨first, rest, hw⟩ := exists_cons_of_ne_nil hne
    have hf := h.window.listable first (hw ▸ mem_cons_self)
    simpa [renderPlaylist, hw] using hf.following c hc
  ended := h.closing.finished
  only c hc := h.not_ended hr hi hc

theorem putRules (h : Inv r) (hput : (r.policy.next r.now).2 = .put req) : r.PutRules req := by
  obtain ⟨hr, hi, hs⟩ := next_put hput
  refine ⟨h.outstanding_nil hi, ?_, ?_⟩
  · rw [Bool.eq_false_iff]
    intro ha
    have hst := h.closing.answered ha
    simp [hr] at hst
  · rcases r.policy.send_cases r.now with ⟨hne, -, heq⟩ | ⟨hd, -, dirty, -, heq⟩ <;> rw [heq] at hs
    · obtain rfl := Next.put.inj hs
      exact .inr ⟨_, _, rfl, rfl, h.playlistRules hr hi hne⟩
    · obtain ⟨front, hf, hnow, ht, hb⟩ := sendPending_put hs
      exact .inl ⟨front.sequence, ht, h.segmentRules hf hnow hd hb⟩

theorem sends_end (h : Inv r) (hfi : r.finished = true)
    (hl : r.playlists ≠ [] ∨ r.policy.window ≠ []) (hr : r.policy.stopped = none)
    (hout : r.outstanding = []) (hnow : ∀ til ∈ r.policy.backoffUntil, til ≤ r.now) :
    ∃ req c, (r.policy.next r.now).2 = .put req ∧ req.body = .playlist c ∧ c.ended = true := by
  have he : r.policy.ending = true := h.closing.finished.trans hfi
  have hne : r.policy.window ≠ [] := hl.elim (fun hs => h.closing.restored he (h.closing.kept hs)) id
  have hi : r.policy.inFlight = none := by
    have hf := h.flight
    rw [hout] at hf
    generalize r.policy.inFlight = f at hf
    cases hf
    rfl
  have hb : r.policy.backoffUntil.filter (r.now < ·) = none := by
    rw [filter_eq_none_iff]
    intro til htil
    simpa using hnow til htil
  have hn : r.policy.next r.now = r.policy.send r.now := by
    simp [UploadPolicy.next, hr, hi, hb]
  rcases r.policy.send_cases r.now with ⟨-, -, heq⟩ | ⟨-, hem, -⟩
  · exact ⟨_, _, by rw [hn, heq], rfl, he⟩
  · exact absurd (hem he) hne

end Inv

namespace UploadRun

variable {session : String} {r : UploadRun}

theorem reachable_inv (h : Reachable step anyLabel (start session) r) : Inv r :=
  h.invariant Inv (fun _ _ _ hs _ hst => hs.step hst) (.start session)

/-- In every run the server sees one request at a time, segments in order inside
their retry windows, playlists of acknowledged segments only that never go back,
and one end playlist, the last request. -/
theorem server_sees_ingest_rules (h : Reachable step anyLabel (start session) r) :
    r.IngestRules where
  outstanding := (reachable_inv h).outstanding_le
  pending := h.invariant (·.policy.pending.length ≤ maxPendingSegments)
    (fun _ _ _ hs _ hstep => pending_le_step hs hstep) (Nat.zero_le _)
  ackedOnce := (reachable_inv h).queue.ackedOnce.imp Nat.ne_of_lt
  put _ hput := (reachable_inv h).putRules hput
  ends := (reachable_inv h).sends_end
  stops hstop hsent := by
    have hinv := reachable_inv h
    rcases next_stop hstop with hs | ⟨he, hem⟩
    · exact hinv.closing.ended hs hsent
    · exact absurd hem (hinv.closing.restored he (hinv.closing.kept hsent))

def publishRange (first count : Nat) : UploadEvent :=
  .publish ((List.range' first count).map fun index => ⟨index, 2000, [0]⟩)

/-- The backlog drops a segment in flight, which empties the window; the output
then ends with the window it sent last. -/
def droppedInFlight : List UploadEvent :=
  [publishRange 0 1, .next, .result (.status 200), .next,
    .result (.status 200), publishRange 1 1, .next,
    publishRange 2 5, .result (.status 200), .finish, .next]

theorem server_sees_ingest_rules_dropped_in_flight :
    ∃ r, Reachable step anyLabel (start "s") r ∧ r.ackedSequences = [0, 1] ∧
      r.playlists.map (fun c => (c.segments.map sequence, c.ended)) =
        [([0], false), ([0], true)] ∧ r.IngestRules :=
  exists_reachable_of_observed droppedInFlight
    (fun r => r.ackedSequences = [0, 1] ∧
      r.playlists.map (fun c => (c.segments.map sequence, c.ended)) = [([0], false), ([0], true)])
    (by decide +kernel)
    fun _ hreach ⟨hacked, hlists⟩ => ⟨hacked, hlists, server_sees_ingest_rules hreach⟩

end UploadRun

end Restream.HlsUpload
