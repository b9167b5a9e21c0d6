import Restream.UploadRun

/-! Each call to an upload policy keeps the invariant of its runs. -/

namespace Restream.HlsUpload

open UploadPolicy UploadRun UploadRequest List Nat

namespace UploadRun

theorem playlists_put (r : UploadRun) :
    (r.answer (pol, .put req)).playlists = r.playlists ++ req.playlist?.toList := by
  simp only [answer, playlists, filterMap_append, filterMap_cons, filterMap_nil]
  cases req.playlist? <;> rfl

theorem segmentSends_put (r : UploadRun) :
    (r.answer (pol, .put req)).segmentSends =
      r.segmentSends ++ (req.sequence?.map (r.now, ·)).toList := by
  simp only [answer, segmentSends, filterMap_append, filterMap_cons, filterMap_nil]
  cases req.sequence? <;> rfl

theorem outstanding_put {r : UploadRun} (hn : r.outstanding = []) :
    (r.answer (pol, .put req)).outstanding = [req] := by
  rw [answer, hn, nil_append]

end UploadRun

theorem UploadPolicy.send_cases (p : UploadPolicy) (now : Nat) :
    (p.window ≠ [] ∧ (p.playlistDirty = true ∨ p.ending = true) ∧
      p.send now = (p.playlistRequest.1, .put p.playlistRequest.2)) ∨
    ((p.playlistDirty = true → p.window = []) ∧ (p.ending = true → p.window = []) ∧
      ∃ dirty, (dirty = p.playlistDirty ∨ dirty = false ∧ p.window = []) ∧
        p.send now = { p with playlistDirty := dirty }.sendPending now p.pending) := by
  unfold send
  by_cases hn : p.playlistDirty = true ∧ p.window = []
  · have hno : ¬(p.ending = true ∧ p.window ≠ []) := fun he => he.2 hn.2
    simp only [if_pos hn, hno, Bool.false_eq_true, or_self, if_false]
    exact .inr ⟨fun _ => hn.2, fun _ => hn.2, false, .inr ⟨rfl, hn.2⟩, rfl⟩
  · simp only [if_neg hn]
    split
    · next ho =>
      refine .inl ⟨?_, ho.imp_right And.left, rfl⟩
      rcases ho with hd | ⟨-, hne⟩
      · exact fun hnil => hn ⟨hd, hnil⟩
      · exact hne
    · next hno =>
      refine .inr ⟨fun hd => absurd (.inl hd) hno, fun he => ?_, _, .inl rfl, rfl⟩
      exact not_not.mp fun hne => hno (.inr ⟨he, hne⟩)

namespace Inv

variable {r : UploadRun}

theorem outstanding_le (h : Inv r) : r.outstanding.length ≤ 1 := by
  have hf := h.flight
  generalize r.policy.inFlight = f at hf
  generalize r.outstanding = out at hf
  cases hf <;> simp

theorem outstanding_tail (h : Inv r) : r.outstanding.tail = [] := by
  have hle := h.outstanding_le
  exact length_eq_zero_iff.mp (by rw [length_tail]; omega)

theorem sendPlaylist (h : Inv r) (hr : r.policy.stopped = none) (hi : r.policy.inFlight = none)
    (ho : r.policy.ending = false → r.policy.playlistDirty = true) (hne : r.policy.window ≠ []) :
    Inv (r.answer (r.policy.playlistRequest.1, .put r.policy.playlistRequest.2)) := by
  have hl : (r.answer (r.policy.playlistRequest.1, .put r.policy.playlistRequest.2)).playlists =
      r.playlists ++ [r.policy.renderPlaylist r.policy.ending] := r.playlists_put
  have hse : (r.answer (r.policy.playlistRequest.1, .put r.policy.playlistRequest.2)).segmentSends =
      r.segmentSends := (r.segmentSends_put).trans (append_nil _)
  have hw := h.window.send (r.policy.renderPlaylist r.policy.ending) rfl
  refine ⟨hse ▸ h.queue, ?_, hl ▸ hw, hl ▸ hw, ?_, ?_⟩
  · rw [hl]
    refine forall_mem_append.mpr ⟨h.earlier, fun c hc => ?_⟩
    obtain rfl := mem_singleton.mp hc
    exact ⟨h.window.head_mem hne, le_refl _⟩
  · rw [hl, outstanding_put (h.outstanding_nil hi)]
    exact .playlist rfl rfl (mem_append_right _ (mem_singleton.mpr rfl)) rfl (List.Subset.refl _)
  · exact { h.closing with
      restored := fun _ hsen => hsen
      kept := fun _ => hne
      last := by
        rw [hl]
        refine forall_mem_append.mpr ⟨fun c hc he => ?_, fun c hc he => .inr ?_⟩
        · exact absurd he (by simp [h.not_ended hr hi hc])
        · obtain rfl := mem_singleton.mp hc
          exact ⟨_, _, rfl, congrArg (UploadTarget.playlist _) he⟩
      ended := fun hs => absurd (hr.symm.trans hs) nofun
      clean := fun hli hcl => absurd (hcl.symm.trans (ho hli)) nofun }

variable {stopped : Option Stopped} {pol : UploadPolicy}

section
variable (h : Inv r)
include h

theorem sendSegment (hr : r.policy.stopped = none) (hi : r.policy.inFlight = none)
    (hp : r.policy.pending = front :: rest) (ht : req.sequence? = some front.sequence)
    (hb : req.playlist? = none) : Inv (r.answer ({ r.policy with
        pending := { front with firstAttempt := some (front.firstAttempt.getD r.now) } :: rest
        inFlight := some ⟨.segment front.sequence, front.duration, bs⟩ }, .put req)) := by
  have hl (pol : UploadPolicy) : (r.answer (pol, .put req)).playlists = r.playlists := by
    rw [r.playlists_put, hb, Option.toList_none, append_nil]
  have hse (pol : UploadPolicy) : (r.answer (pol, .put req)).segmentSends =
      r.segmentSends ++ [(r.now, front.sequence)] := by
    rw [r.segmentSends_put, ht]
    rfl
  have hqu := h.queue
  rw [hp] at hqu
  have hf := hqu.waiting front mem_cons_self
  obtain ⟨hbe, -⟩ := pairwise_cons.mp hqu.increasing
  have hli : r.policy.ending ≠ true := fun he => by
    simp [h.closing.drained he] at hp
  refine ⟨?_, ?_, ?_, ?_, ?_, ?_⟩
  · rw [hse]
    exact hqu.send
  · rw [hl]
    exact h.earlier
  · rw [hl]
    exact h.window
  · rw [hl]
    exact h.sentWindow
  · rw [outstanding_put (h.outstanding_nil hi)]
    obtain ⟨s, hs, hd, -⟩ := hf.holds
    refine .segment ht hb ⟨s, hs, hd⟩ hf.unacked ?_
    exact forall_mem_cons.mpr ⟨le_refl _, fun q hq => le_of_lt (hbe q hq)⟩
  · exact { h.closing with
      drained := fun he => absurd he hli
      kept := by
        rw [hl]
        exact h.closing.kept
      last := by
        rw [hl]
        exact fun c hc hen => absurd hen (by simp [h.not_ended hr hi hc])
      ended := fun hst => absurd (hr.symm.trans hst) nofun }

theorem stopEnded (he : r.policy.ending = true) (hem : r.policy.window = []) :
    Inv { r with policy := { r.policy with pending := [], stopped := some .ended }, stopAnswered := true } where
  __ := h
  queue := h.queue.sublist (nil_sublist _)
  flight := h.flight.frame (fun _ _ hs => hs) (fun _ hq => absurd hq not_mem_nil)
    (.inl (List.Subset.refl _))
  closing := { h.closing with
      drained := fun _ => rfl
      last := fun _ _ _ => .inl rfl
      ended := fun _ hse => absurd hem (h.closing.restored he (h.closing.kept hse))
      answered := fun _ => rfl }

theorem fail (attempts : Nat) (til : Option Nat)
    (hl : ∀ c ∈ r.playlists, c.ended = true → stopped.isSome)
    (he : stopped = some .ended → r.playlists ≠ [] → ∃ c ∈ r.playlists, c.ended = true)
    (ha : r.stopAnswered = true → stopped.isSome) : Inv { r with
      policy := { r.policy with
        inFlight := none, stopped := stopped, attempts := attempts, backoffUntil := til }
      outstanding := r.outstanding.tail } where
  __ := h
  flight := h.outstanding_tail.symm ▸ .none
  closing := { h.closing with
      last := fun c hc hend => .inl (hl c hc hend)
      ended := he
      answered := ha }

theorem ackPlaylist (hout : r.outstanding = [req]) (ht : req.sequence? = none)
    (hb : req.playlist? = some content) (hw : r.policy.window ⊆ content.segments)
    (hl : ∀ c ∈ r.playlists, c.ended = true → stopped.isSome)
    (he : stopped = some .ended → r.playlists ≠ [] → ∃ c ∈ r.playlists, c.ended = true)
    (han : r.stopAnswered = true → stopped.isSome) : Inv { r with
      policy := { r.policy with
        inFlight := none, stopped := stopped, attempts := 0, backoffUntil := none
        playlistDirty := false }
      outstanding := r.outstanding.tail
      acknowledged := r.acknowledged ++ r.outstanding.take 1 } := by
  rw [hout]
  have ha : (r.acknowledged ++ [req]).filterMap sequence? = r.ackedSequences := by
    simp [ackedSequences, filterMap_append, ht]
  refine ⟨?_, ?_, ?_, ?_, .none, ?_⟩
  all_goals simp only [ackedSequences] at ha ⊢
  · exact ha ▸ h.queue
  · exact ha ▸ h.earlier
  · exact ha ▸ h.window
  · exact ha ▸ h.sentWindow
  · exact
    { h.closing with
      last := fun c hc hend => .inl (hl c hc hend)
      ended := he
      answered := han
      clean := fun _ _ s hs => ⟨content, by
        simp [lastAckedPlaylist, filterMap_append, hb], hw hs⟩ }

theorem ackSegment (hr : ∀ f l, r.policy.inFlight = some f → f.target ≠ .playlist l true)
    (hout : r.outstanding = [req]) (ht : req.sequence? = some n) (hb : req.playlist? = none)
    (hp : n < r.published.length) (ha : ∀ m ∈ r.ackedSequences, m < n)
    (hsub : pend.Sublist r.policy.pending) (hpe : ∀ q ∈ pend, n < q.sequence) (dur : Nat)
    (delivery : SegmentDelivery) : Inv { r with
      policy := { r.policy with
        inFlight := none, attempts := 0, backoffUntil := none, delivery := delivery
        pending := pend, targetDuration := max r.policy.targetDuration (ceilSeconds dur) }
      outstanding := r.outstanding.tail
      acknowledged := r.acknowledged ++ r.outstanding.take 1 } := by
  rw [hout, take_of_length_le (le_refl 1)]
  have hse : (r.acknowledged ++ [req]).filterMap sequence? =
      r.ackedSequences ++ [n] := by
    simp [ackedSequences, filterMap_append, ht]
  have hl : (r.acknowledged ++ [req]).filterMap playlist? =
      r.acknowledged.filterMap playlist? := by
    simp [filterMap_append, hb]
  have hm := subset_append_left r.ackedSequences [n]
  have ht := le_max_left r.policy.targetDuration (ceilSeconds dur)
  refine ⟨?_, ?_, ?_, ?_, .none, ?_⟩
  all_goals simp only [ackedSequences] at hse ⊢
  · rw [hse]
    exact (h.queue.sublist hsub).acknowledge hp ha hpe
  · rw [hse]
    exact fun c hc => (h.earlier c hc).imp (fun hmem => hm hmem) fun hle => le_trans hle ht
  · rw [hse]
    exact h.window.mono (fun _ _ hs => hs) hm ht
  · rw [hse]
    exact h.sentWindow.mono (fun _ _ hs => hs) hm ht
  · exact
    { h.closing with
      drained := fun he => sublist_nil.mp (h.closing.drained he ▸ hsub)
      last := fun c hc hen => (h.closing.last c hc hen).imp_right <| by
        rintro ⟨f, l, hf, heq⟩
        exact absurd heq (hr f l hf)
      clean := fun hli hcl s hs => by
        simpa only [lastAckedPlaylist, hl] using h.closing.clean hli hcl s hs }

theorem listAcked (hi : r.policy.inFlight = none)
    (hs : Listable r.published r.playlists r.ackedSequences r.policy.targetDuration s) :
    Inv { r with policy := r.policy.listAcked s } := by
  rcases r.policy.listAcked_cases s with heq | ⟨w, hw, heq⟩ <;> rw [heq]
  · exact h
  · have hne := (trimWindow_spec r.policy.windowFloor (w ++ [s])).2.2 (by simp)
    refine ⟨h.queue, h.earlier, ?_, h.sentWindow, ?_, ?_⟩
    · rcases hw with rfl | ⟨rfl, hn⟩
      · exact Window.nil.push hs (by simp) r.policy.windowFloor
      · exact h.window.push hs hn _
    · have hout := h.outstanding_nil hi
      simp only [hi, hout]
      exact .none
    · exact
      { h.closing with
        restored := fun _ _ => hne
        clean := fun _ hc => Bool.noConfusion hc }

theorem enqueueAll (hl : r.policy.ending = false) (now : Nat) (segs : List HlsSegment) :
    Inv { r with
      policy := segs.foldl (UploadPolicy.enqueue now) r.policy
      published := r.published ++ segs } := by
  induction segs generalizing r with
  | nil => simpa using h
  | cons seg rest ih => simpa using ih (h.enqueue hl now seg) hl

end

theorem capBacklog (h : Inv { r with policy := { pol with pending := pend } }) :
    Inv { r with policy := pol.capBacklog pend } := by
  induction pend generalizing pol with
  | nil => exact h
  | cons front rest ih =>
    unfold capBacklog
    split
    · exact ih (h.drop rfl pol.attempts (pol.backlogDropped + 1))
    · exact h

theorem onPublish (h : Inv r) (snapshot : List HlsSegment) : Inv { r with
      policy := r.policy.onPublish snapshot r.now
      published := r.published ++ r.policy.taken snapshot } := by
  unfold UploadPolicy.onPublish
  split
  · next ho => simpa [taken, if_pos ho] using h
  · next hl =>
    split
    · next hn => simpa [taken, hn] using h
    · next newest _ =>
      have he : r.policy.ending = false := by simpa using fun he => hl (.inl he)
      have hall := (h.seen (some newest)).enqueueAll he r.now (r.policy.taken snapshot)
      exact capBacklog (r := { r with published := r.published ++ r.policy.taken snapshot }) hall

theorem sendPending (h : Inv { r with policy := { pol with pending := pend } })
    (hr : pol.stopped = none) (hi : pol.inFlight = none)
    (hem : pol.ending = true → pol.window = []) :
    Inv (r.answer (pol.sendPending r.now pend)) := by
  induction pend generalizing pol with
  | nil =>
    unfold sendPending
    split
    · next he => exact h.stopEnded he (hem he)
    · exact h
  | cons front rest ih =>
    unfold sendPending
    split
    · exact ih (h.drop rfl 0 pol.backlogDropped) hr hi fun _ => rfl
    · exact h.sendSegment hr hi rfl rfl rfl

variable (h : Inv r)
include h

theorem send (hr : r.policy.stopped = none) (hi : r.policy.inFlight = none) :
    Inv (r.answer (r.policy.send r.now)) := by
  rcases r.policy.send_cases r.now with ⟨hne, ho, heq⟩ | ⟨-, he, dirty, hd, heq⟩ <;> rw [heq]
  · refine h.sendPlaylist hr hi (fun hl => ho.resolve_right fun he => ?_) hne
    exact absurd (hl.symm.trans he) nofun
  · rcases hd with rfl | ⟨rfl, hem⟩
    · exact h.sendPending hr hi he
    · exact (h.undirty hem).sendPending hr hi fun _ => hem

theorem next : Inv (r.answer (r.policy.next r.now)) := by
  unfold UploadPolicy.next
  split
  · next stopped hs =>
    exact { h with
      closing := { h.closing with answered := fun _ => by simp [answer, hs] } }
  · next hr =>
    split
    · exact h
    · next hi =>
      split
      · exact h
      · exact h.send hr (by simpa using hi)

theorem last_of_other (ho : ∀ f l, r.policy.inFlight = some f → f.target ≠ .playlist l true) :
    ∀ c ∈ r.playlists, c.ended = true → r.policy.stopped.isSome := by
  intro c hc he
  rcases h.closing.last c hc he with hs | ⟨f, l, hf, heq⟩
  · exact hs
  · exact absurd heq (ho f l hf)

theorem onResult_segment (hfl : r.policy.inFlight = some ⟨.segment n, dur, bs⟩)
    (hout : r.outstanding = [req]) (ht : req.sequence? = some n) (hb : req.playlist? = none)
    (hp : ∃ s, r.published[n]? = some s ∧ s.duration = dur)
    (ha : ∀ m ∈ r.ackedSequences, m < n) (hpe : ∀ q ∈ r.policy.pending, n ≤ q.sequence)
    (outcome : UploadOutcome) : Inv (r.settle (r.policy.onResult outcome r.now)) := by
  have ho : ∀ f l, r.policy.inFlight = some f → f.target ≠ .playlist l true := by
    intro f l hf
    obtain rfl := Option.some.inj (hfl.symm.trans hf)
    intro heq
    cases heq
  have hl := h.last_of_other ho
  unfold onResult
  simp only [hfl]
  split
  · obtain ⟨s, hs, hd⟩ := hp
    obtain ⟨hsub, haf⟩ := popSent_spec h.queue.increasing hpe
    have hmid := h.ackSegment ho hout ht hb (List.getElem?_eq_some_iff.mp hs).1 ha hsub haf
      dur (r.policy.delivery.acknowledged n r.now)
    exact hmid.listAcked (s := ⟨n, dur⟩) rfl
      { acked := by simp [ackedSequences, filterMap_append, hout, ht]
        duration := ⟨s, hs, hd⟩
        ceil := le_max_right _ _
        following := fun c hc => le_of_lt (ha _ (h.earlier c hc).1) }
  · exact h.fail r.policy.attempts r.policy.backoffUntil
      (fun _ _ _ => rfl) (fun hs => by cases hs) (fun _ => rfl)
  · exact h.fail (r.policy.attempts + 1) (some (r.now + backoff (r.policy.attempts + 1))) hl
      h.closing.ended h.closing.answered

theorem onResult_playlist (hfl : r.policy.inFlight = some ⟨.playlist last content.ended, dur, bs⟩)
    (hout : r.outstanding = [req]) (ht : req.sequence? = none) (hb : req.playlist? = some content)
    (hse : content ∈ r.playlists) (hw : r.policy.window ⊆ content.segments)
    (outcome : UploadOutcome) : Inv (r.settle (r.policy.onResult outcome r.now)) := by
  unfold onResult
  simp only [hfl]
  cases hend : content.ended with
  | false =>
    have ho : ∀ f l, r.policy.inFlight = some f → f.target ≠ .playlist l true := by
      rintro f l hf
      obtain rfl := Option.some.inj (hfl.symm.trans hf)
      simp [hend]
    have hl := h.last_of_other ho
    split
    · exact h.ackPlaylist hout ht hb hw hl h.closing.ended h.closing.answered
    · exact h.fail r.policy.attempts r.policy.backoffUntil (fun _ _ _ => rfl) (fun hs => by cases hs)
        (fun _ => rfl)
    · exact h.fail (r.policy.attempts + 1) (some (r.now + backoff (r.policy.attempts + 1))) hl
        h.closing.ended h.closing.answered
  | true =>
    have he : ∃ c ∈ r.playlists, c.ended = true := ⟨content, hse, hend⟩
    split
    · exact h.ackPlaylist hout ht hb hw (fun _ _ _ => rfl) (fun _ _ => he) (fun _ => rfl)
    · exact h.fail r.policy.attempts r.policy.backoffUntil (fun _ _ _ => rfl) (fun hs => by cases hs)
        (fun _ => rfl)
    · exact h.fail r.policy.attempts r.policy.backoffUntil
        (fun _ _ _ => rfl) (fun _ _ => he) (fun _ => rfl)

theorem onResult (outcome : UploadOutcome) : Inv (r.settle (r.policy.onResult outcome r.now)) := by
  have hfl := h.flight
  generalize hf : r.policy.inFlight = f at hfl
  generalize hout : r.outstanding = out at hfl
  cases hfl with
  | none =>
    unfold UploadPolicy.onResult
    simp only [hf]
    exact h
  | segment ht hb hp ha hpe =>
    exact h.onResult_segment hf hout ht hb hp ha hpe outcome
  | playlist ht hb hse hs hw =>
    exact h.onResult_playlist hf hout ht hb hse (hs ▸ hw) outcome

theorem step (hstep : r.step e = some r') : Inv r' := by
  cases e <;> obtain rfl := Option.some.inj hstep
  case elapse millis => exact h.elapse millis
  case publish snapshot => exact h.onPublish snapshot
  case next => exact h.next
  case result outcome => exact h.onResult outcome
  case finish => exact h.finish

end Inv

end Restream.HlsUpload
