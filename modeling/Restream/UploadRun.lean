import Mathlib.Data.List.Chain
import Restream.UploadPolicy
import Restream.Exec

/-! Runs of an upload policy: publishes, requests, results and the end of the
output in any order, with what the server sees of them and what each part of a call
keeps. -/

namespace Restream.HlsUpload

def UploadRequest.sequence? (request : UploadRequest) : Option Nat :=
  match request.target with
  | .segment sequence => some sequence
  | .playlist _ _ => none

def UploadRequest.playlist? (request : UploadRequest) : Option Playlist :=
  match request.body with
  | .media _ => none
  | .playlist content => some content

structure UploadRun where
  policy : UploadPolicy
  now : Nat
  published : List HlsSegment
  sent : List (Nat × UploadRequest)
  outstanding : List UploadRequest
  acknowledged : List UploadRequest
  finished : Bool
  stopAnswered : Bool

inductive UploadEvent where
  | elapse (millis : Nat)
  | publish (snapshot : List HlsSegment)
  | next
  | result (outcome : UploadOutcome)
  | finish

namespace UploadRun

def start (session : String) : UploadRun :=
  { policy := .new session, now := 0, published := [], sent := [], outstanding := []
    acknowledged := [], finished := false, stopAnswered := false }

def segmentSends (r : UploadRun) : List (Nat × Nat) :=
  r.sent.filterMap fun send => send.2.sequence?.map (send.1, ·)

def playlists (r : UploadRun) : List Playlist :=
  r.sent.filterMap (·.2.playlist?)

def ackedSequences (r : UploadRun) : List Nat :=
  r.acknowledged.filterMap UploadRequest.sequence?

def lastAckedPlaylist (r : UploadRun) : Option Playlist :=
  (r.acknowledged.filterMap UploadRequest.playlist?).getLast?

def answer (r : UploadRun) : UploadPolicy × Next → UploadRun
  | (policy, .put request) =>
    { r with
      policy := policy
      sent := r.sent ++ [(r.now, request)]
      outstanding := r.outstanding ++ [request] }
  | (policy, .wait _) => { r with policy := policy }
  | (policy, .stop _) => { r with policy := policy, stopAnswered := true }

def settle (r : UploadRun) : UploadPolicy × Option ResultEffect → UploadRun
  | (policy, none) => { r with policy := policy }
  | (policy, some (.acknowledged _)) =>
    { r with
      policy := policy
      outstanding := r.outstanding.tail
      acknowledged := r.acknowledged ++ r.outstanding.take 1 }
  | (policy, some _) => { r with policy := policy, outstanding := r.outstanding.tail }

def step (r : UploadRun) : UploadEvent → Option UploadRun
  | .elapse millis => some { r with now := r.now + millis }
  | .publish snapshot =>
    some { r with
      policy := r.policy.onPublish snapshot r.now
      published := r.published ++ r.policy.taken snapshot }
  | .next => some (r.answer (r.policy.next r.now))
  | .result outcome => some (r.settle (r.policy.onResult outcome r.now))
  | .finish => some { r with policy := r.policy.finish, finished := true }

end UploadRun

/-- A segment that waits for its acknowledgement: nothing sent or acknowledged
is ahead of it, and its retry window counts from its first send. -/
structure Waiting (published : List HlsSegment) (sends : List (Nat × Nat)) (acked : List Nat)
    (now : Nat) (q : PendingSegment) : Prop where
  holds : ∃ s, published[q.sequence]? = some s ∧ s.duration = q.duration ∧ s.data = q.data
  unacked : ∀ n ∈ acked, n < q.sequence
  inOrder : ∀ e ∈ sends, e.2 ≤ q.sequence
  attempted : ∀ e ∈ sends, e.2 = q.sequence → ∃ first, q.firstAttempt = some first ∧ first ≤ e.1
  past : ∀ first, q.firstAttempt = some first → first ≤ now

structure Queued (published : List HlsSegment) (sends : List (Nat × Nat)) (acked : List Nat)
    (now next : Nat) (pending : List PendingSegment) : Prop where
  numbered : published.length = next
  sentBelow : ∀ e ∈ sends, e.2 < next
  ackedBelow : ∀ n ∈ acked, n < next
  ackedOnce : acked.Pairwise (· < ·)
  increasing : pending.Pairwise (·.sequence < ·.sequence)
  waiting : ∀ q ∈ pending, Waiting published sends acked now q

structure Listable (published : List HlsSegment) (playlists : List Playlist) (acked : List Nat)
    (target : Nat) (s : AckedSegment) : Prop where
  acked : s.sequence ∈ acked
  duration : ∃ segment, published[s.sequence]? = some segment ∧ segment.duration = s.duration
  ceil : ceilSeconds s.duration ≤ target
  following : ∀ earlier ∈ playlists, earlier.mediaSequence ≤ s.sequence

structure Window (published : List HlsSegment) (playlists : List Playlist) (acked : List Nat)
    (target : Nat) (window : List AckedSegment) : Prop where
  length : window.length ≤ playlistWindow
  consecutive : window.IsChain (fun a b => b.sequence = a.sequence + 1)
  listable : ∀ s ∈ window, Listable published playlists acked target s

/-- The request in flight is the one outstanding. A segment in flight may have
left the pending ones, but none of them is before it. -/
inductive Flight (published : List HlsSegment) (playlists : List Playlist) (acked : List Nat)
    (pending : List PendingSegment) (window sentWindow : List AckedSegment) :
    Option InFlight → List UploadRequest → Prop
  | none : Flight published playlists acked pending window sentWindow none []
  | segment {sequence duration bytes : Nat} {request : UploadRequest}
      (htarget : request.sequence? = some sequence) (hbody : request.playlist? = .none)
      (hpublished : ∃ s, published[sequence]? = some s ∧ s.duration = duration)
      (hacked : ∀ n ∈ acked, n < sequence) (hpending : ∀ q ∈ pending, sequence ≤ q.sequence) :
      Flight published playlists acked pending window sentWindow
        (some ⟨.segment sequence, duration, bytes⟩) [request]
  | playlist {last : Option Nat} {duration bytes : Nat} {request : UploadRequest} {content : Playlist}
      (htarget : request.sequence? = .none) (hbody : request.playlist? = some content)
      (hsent : content ∈ playlists) (hsegments : content.segments = sentWindow)
      (hwindow : window ⊆ sentWindow) :
      Flight published playlists acked pending window sentWindow
        (some ⟨.playlist last content.ended, duration, bytes⟩) [request]

/-- Once the output is ending only its end playlist remains, and it follows
every other playlist. -/
structure Closing (r : UploadRun) : Prop where
  finished : r.policy.ending = r.finished
  drained : r.policy.ending = true → r.policy.pending = []
  restored : r.policy.ending = true → r.policy.sentWindow ≠ [] → r.policy.window ≠ []
  kept : r.playlists ≠ [] → r.policy.sentWindow ≠ []
  last : ∀ c ∈ r.playlists, c.ended = true →
    r.policy.stopped.isSome ∨ ∃ f l, r.policy.inFlight = some f ∧ f.target = .playlist l true
  ended : r.policy.stopped = some .ended → r.playlists ≠ [] → ∃ c ∈ r.playlists, c.ended = true
  answered : r.stopAnswered = true → r.policy.stopped.isSome
  clean : r.policy.ending = false → r.policy.playlistDirty = false → ∀ s ∈ r.policy.window,
    ∃ c, r.lastAckedPlaylist = some c ∧ s ∈ c.segments

structure Inv (r : UploadRun) : Prop where
  queue : Queued r.published r.segmentSends r.ackedSequences r.now r.policy.nextSequence
    r.policy.pending
  earlier : ∀ c ∈ r.playlists, c.mediaSequence ∈ r.ackedSequences ∧
    c.targetDuration ≤ r.policy.targetDuration
  window : Window r.published r.playlists r.ackedSequences r.policy.targetDuration r.policy.window
  sentWindow : Window r.published r.playlists r.ackedSequences r.policy.targetDuration
    r.policy.sentWindow
  flight : Flight r.published r.playlists r.ackedSequences r.policy.pending r.policy.window
    r.policy.sentWindow r.policy.inFlight r.outstanding
  closing : Closing r

open List Option UploadPolicy

section Growth

variable {pub : List HlsSegment} {sends : List (Nat × Nat)} {playlists : List Playlist}
  {acked : List Nat} {now next target : Nat} {pend : List PendingSegment}
  {window sentWindow : List AckedSegment}

variable {n target' : Nat}

theorem getElem?_append_of_some {s : HlsSegment} (h : l[n]? = some s) (l' : List HlsSegment) :
    (l ++ l')[n]? = some s := by
  rw [List.getElem?_append_left (List.getElem?_eq_some_iff.mp h).1, h]

theorem Waiting.publish (h : Waiting pub sends acked now q) (l : List HlsSegment) :
    Waiting (pub ++ l) sends acked now q :=
  { h with holds := h.holds.imp fun _ hs => ⟨getElem?_append_of_some hs.1 l, hs.2⟩ }

theorem Waiting.lt_length (h : Waiting pub sends acked now q) : q.sequence < pub.length := by
  obtain ⟨s, hs, -⟩ := h.holds
  exact (List.getElem?_eq_some_iff.mp hs).1

section

variable (h : Queued pub sends acked now next pend)

include h

theorem Queued.elapse (millis : Nat) : Queued pub sends acked (now + millis) next pend :=
  { h with
    waiting := fun q hq => { h.waiting q hq with
      past := fun first hf => Nat.le_add_right_of_le ((h.waiting q hq).past first hf) } }

theorem Queued.sublist (hsub : pend'.Sublist pend) : Queued pub sends acked now next pend' :=
  { h with increasing := h.increasing.sublist hsub, waiting := fun q hq => h.waiting q (hsub.subset hq) }

theorem Queued.enqueue (seg : HlsSegment) :
    Queued (pub ++ [seg]) sends acked now (next + 1) (pend ++
      [⟨next, seg.duration, seg.data, none⟩]) where
  numbered := by simp [h.numbered]
  sentBelow e he := Nat.lt_succ_of_lt (h.sentBelow e he)
  ackedBelow n hn := Nat.lt_succ_of_lt (h.ackedBelow n hn)
  ackedOnce := h.ackedOnce
  increasing := by
    refine pairwise_append.mpr ⟨h.increasing, pairwise_singleton _ _, fun q hq q' hq' => ?_⟩
    obtain rfl := mem_singleton.mp hq'
    exact h.numbered ▸ (h.waiting q hq).lt_length
  waiting := by
    refine forall_mem_append.mpr ⟨fun q hq => (h.waiting q hq).publish _, ?_⟩
    rintro q hq
    obtain rfl := mem_singleton.mp hq
    exact {
      holds := ⟨seg, by simp [← h.numbered], rfl, rfl⟩
      unacked := h.ackedBelow
      inOrder := fun e he => Nat.le_of_lt (h.sentBelow e he)
      attempted := fun e he heq => absurd heq (Nat.ne_of_lt (h.sentBelow e he))
      past := fun _ hf => by cases hf }

end

theorem Queued.send (h : Queued pub sends acked now next (front :: rest)) :
    Queued pub (sends ++ [(now, front.sequence)]) acked now next
      ({ front with firstAttempt := some (front.firstAttempt.getD now) } :: rest) := by
  obtain ⟨hb, hr⟩ := pairwise_cons.mp h.increasing
  have hfr := h.waiting front mem_cons_self
  have hfi : front.firstAttempt.getD now ≤ now := by
    cases hf : front.firstAttempt with
    | none => exact Nat.le_refl now
    | some first => exact hfr.past first hf
  refine ⟨h.numbered, ?_, h.ackedBelow, h.ackedOnce, pairwise_cons.mpr ⟨hb, hr⟩, ?_⟩
  · refine forall_mem_append.mpr ⟨h.sentBelow, ?_⟩
    simpa [← h.numbered] using hfr.lt_length
  · refine forall_mem_cons.mpr ⟨⟨hfr.holds, hfr.unacked, ?_, ?_, ?_⟩, fun q hq => ?_⟩
    · exact forall_mem_append.mpr ⟨hfr.inOrder, by simp⟩
    · refine forall_mem_append.mpr ⟨fun e he heq => ?_, by simpa using hfi⟩
      obtain ⟨first, hf, hle⟩ := hfr.attempted e he heq
      exact ⟨first, by simp [hf], hle⟩
    · simpa using hfi
    · have hq' := h.waiting q (mem_cons_of_mem _ hq)
      have hlt : front.sequence < q.sequence := hb q hq
      refine ⟨hq'.holds, hq'.unacked, ?_, ?_, hq'.past⟩
      · exact forall_mem_append.mpr ⟨hq'.inOrder, by simpa using Nat.le_of_lt hlt⟩
      · exact forall_mem_append.mpr
          ⟨hq'.attempted, by simpa using fun heq => absurd heq (Nat.ne_of_lt hlt)⟩

theorem Queued.acknowledge (h : Queued pub sends acked now next pend)
    (hp : n < pub.length) (ha : ∀ m ∈ acked, m < n) (hpe : ∀ q ∈ pend, n < q.sequence) :
    Queued pub sends (acked ++ [n]) now next pend where
  __ := h
  ackedBelow := forall_mem_append.mpr ⟨h.ackedBelow, by simpa [← h.numbered] using hp⟩
  ackedOnce := by
    refine pairwise_append.mpr ⟨h.ackedOnce, pairwise_singleton _ _, fun m hm n' hn' => ?_⟩
    obtain rfl := mem_singleton.mp hn'
    exact ha m hm
  waiting q hq := { h.waiting q hq with
      unacked := forall_mem_append.mpr ⟨(h.waiting q hq).unacked, by simpa using hpe q hq⟩ }

theorem Listable.mono (h : Listable pub playlists acked target s)
    (hp : ∀ (n : Nat) s, pub[n]? = some s → pub'[n]? = some s) (ha : acked ⊆ acked')
    (ht : target ≤ target') : Listable pub' playlists acked' target' s where
  acked := ha h.acked
  duration := h.duration.imp fun _ hs => ⟨hp _ _ hs.1, hs.2⟩
  ceil := Nat.le_trans h.ceil ht
  following := h.following

theorem Window.mono (h : Window pub playlists acked target window)
    (hp : ∀ (n : Nat) s, pub[n]? = some s → pub'[n]? = some s) (ha : acked ⊆ acked')
    (ht : target ≤ target') : Window pub' playlists acked' target' window :=
  { h with listable := fun s hs => (h.listable s hs).mono hp ha ht }

theorem Window.nil : Window pub playlists acked target [] where
  length := Nat.zero_le _
  consecutive := .nil
  listable _ hs := absurd hs not_mem_nil

section

variable (h : Window pub playlists acked target window)

include h

theorem Window.head_le :
    ∀ s ∈ window, window.head?.elim 0 AckedSegment.sequence ≤ s.sequence := by
  cases window with
  | nil => exact fun s hs => absurd hs not_mem_nil
  | cons first rest =>
    have ht : (first :: rest).Pairwise fun a b => a.sequence < b.sequence :=
      (h.consecutive.imp fun a b hab => hab ▸ Nat.lt_succ_self a.sequence).pairwise
    refine forall_mem_cons.mpr ⟨Nat.le_refl _, fun s hs => ?_⟩
    exact Nat.le_of_lt ((pairwise_cons.mp ht).1 s hs)

theorem Window.send (content : Playlist)
    (hf : content.mediaSequence = window.head?.elim 0 AckedSegment.sequence) :
    Window pub (playlists ++ [content]) acked target window :=
  { h with
    listable := fun s hs => { h.listable s hs with
      following := forall_mem_append.mpr
        ⟨(h.listable s hs).following, by simpa [hf] using h.head_le s hs⟩ } }

theorem Window.head_mem (hne : window ≠ []) :
    window.head?.elim 0 AckedSegment.sequence ∈ acked := by
  cases window with
  | nil => exact absurd rfl hne
  | cons first rest => exact (h.listable first mem_cons_self).acked

end

theorem trimWindow_spec (floor : Nat) (w : List AckedSegment) : (trimWindow floor w).2 <:+ w ∧
      (trimWindow floor w).2.length ≤ playlistWindow ∧
      (w ≠ [] → (trimWindow floor w).2 ≠ []) := by
  induction w generalizing floor with
  | nil => simp [trimWindow]
  | cons left rest ih =>
    unfold trimWindow
    split
    · next hlo =>
      obtain ⟨hs, hl, hne⟩ := ih (max floor (left.sequence + 1))
      refine ⟨hs.trans (suffix_cons left rest), hl, fun _ => hne ?_⟩
      rintro rfl
      simp at hlo
    · next hsh => exact ⟨suffix_refl _, Nat.le_of_not_lt hsh, fun h => h⟩

theorem Window.push (h : Window pub playlists acked target window)
    (hs : Listable pub playlists acked target s)
    (hn : ∀ last ∈ window.getLast?, s.sequence = last.sequence + 1) (floor : Nat) :
    Window pub playlists acked target (trimWindow floor (window ++ [s])).2 := by
  obtain ⟨hsu, hl, -⟩ := trimWindow_spec floor (window ++ [s])
  refine ⟨hl, List.IsChain.suffix ?_ hsu, fun s' hs' => ?_⟩
  · exact isChain_append.mpr ⟨h.consecutive, .singleton s, by simpa using hn⟩
  · rcases mem_append.mp (hsu.subset hs') with hold | hnew
    · exact h.listable s' hold
    · obtain rfl := mem_singleton.mp hnew
      exact hs

theorem Flight.frame (h : Flight pub playlists acked pend window sentWindow f out)
    (hp : ∀ (n : Nat) s, pub[n]? = some s → pub'[n]? = some s)
    (hpe : ∀ q ∈ pend', q ∈ pend ∨ pub.length ≤ q.sequence)
    (hw : window' ⊆ window ∨ window' ⊆ sentWindow) :
    Flight pub' playlists acked pend' window' sentWindow f out := by
  cases h with
  | none => exact .none
  | segment ht hb hpub ha hpen =>
    obtain ⟨s, hs, hd⟩ := hpub
    have hlt := (List.getElem?_eq_some_iff.mp hs).1
    refine .segment ht hb ⟨s, hp _ _ hs, hd⟩ ha fun q hq => ?_
    rcases hpe q hq with hold | hnew
    · exact hpen q hold
    · omega
  | playlist ht hb hsen hse hwin =>
    exact .playlist ht hb hsen hse (hw.elim (fun hsub => List.Subset.trans hsub hwin) id)

end Growth

theorem UploadPolicy.finish_window (p : UploadPolicy) :
    (p.window = [] ∧ p.finish.window = p.sentWindow) ∨
    (p.window ≠ [] ∧ p.finish.window = p.window) := by
  by_cases he : p.window = []
  · exact .inl ⟨he, if_pos he⟩
  · exact .inr ⟨he, if_neg he⟩

theorem UploadPolicy.listAcked_cases (p : UploadPolicy) (s : AckedSegment) :
    p.listAcked s = p ∨ ∃ w, (w = [] ∨ w = p.window ∧
      ∀ last ∈ w.getLast?, s.sequence = last.sequence + 1) ∧
      p.listAcked s = { p with
        window := (trimWindow p.windowFloor (w ++ [s])).2
        windowFloor := (trimWindow p.windowFloor (w ++ [s])).1
        playlistDirty := true } := by
  unfold listAcked
  split
  · refine .inr ⟨_, ?_, rfl⟩
    split
    · exact .inl rfl
    · next hl =>
      refine .inr ⟨rfl, fun last hmem => ?_⟩
      have heq : last.sequence + 1 = s.sequence := by simpa [mem_def.mp hmem] using hl
      exact heq.symm
  · exact .inl rfl

theorem UploadPolicy.popSent_spec {p : UploadPolicy}
    (hi : p.pending.Pairwise (·.sequence < ·.sequence))
    (hle : ∀ q ∈ p.pending, n ≤ q.sequence) :
    (p.popSent n).pending.Sublist p.pending ∧ ∀ q ∈ (p.popSent n).pending, n < q.sequence := by
  unfold popSent
  cases hp : p.pending with
  | nil => simp
  | cons front rest =>
    rw [hp] at hi hle
    obtain ⟨hb, -⟩ := pairwise_cons.mp hi
    have hf : n ≤ front.sequence := hle front mem_cons_self
    by_cases heq : front.sequence = n
    · simp only [if_pos heq]
      exact ⟨sublist_cons_self front rest, fun q hq => heq ▸ hb q hq⟩
    · simp only [if_neg heq]
      have hlt : n < front.sequence := by omega
      refine ⟨List.Sublist.refl _, forall_mem_cons.mpr ⟨hlt, fun q hq => ?_⟩⟩
      exact Nat.lt_trans hlt (hb q hq)

namespace Inv

variable {r : UploadRun}

theorem start (sess : String) : Inv (UploadRun.start sess) where
  queue := by constructor <;> simp [UploadRun.start, UploadRun.segmentSends, UploadRun.ackedSequences,
    UploadPolicy.new]
  earlier := by simp [UploadRun.start, UploadRun.playlists]
  window := .nil
  sentWindow := .nil
  flight := .none
  closing := by constructor <;> simp [UploadRun.start, UploadRun.playlists, UploadPolicy.new]

section

variable (h : Inv r)

include h

theorem elapse (millis : Nat) : Inv { r with now := r.now + millis } :=
  { h with queue := h.queue.elapse millis, closing := { h.closing with } }

theorem seen (newest : Option Nat) :
    Inv { r with policy := { r.policy with lastStoreIndex := newest } } :=
  { h with closing := { h.closing with } }

theorem enqueue (hl : r.policy.ending = false) (now : Nat) (seg : HlsSegment) : Inv { r with
      policy := r.policy.enqueue now seg
      published := r.published ++ [seg] } where
  __ := h
  queue := h.queue.enqueue seg
  window :=
    h.window.mono (fun _ _ hs => getElem?_append_of_some hs _) (List.Subset.refl _) (Nat.le_refl _)
  sentWindow :=
    h.sentWindow.mono (fun _ _ hs => getElem?_append_of_some hs _)
      (List.Subset.refl _) (Nat.le_refl _)
  flight := by
    refine h.flight.frame (fun _ _ hs => getElem?_append_of_some hs _) ?_ (.inl (List.Subset.refl _))
    refine forall_mem_append.mpr ⟨fun q hq => .inl hq, fun q hq => .inr ?_⟩
    obtain rfl := mem_singleton.mp hq
    exact Nat.le_of_eq h.queue.numbered
  closing := { h.closing with drained := fun he => absurd (hl.symm.trans he) (by decide) }

theorem drop (hp : r.policy.pending = front :: rest) (attempts backlogDropped : Nat) : Inv { r with
      policy := { r.policy.dropSegment front.sequence with
        pending := rest, attempts := attempts, backlogDropped := backlogDropped } } where
  __ := h
  queue := h.queue.sublist (hp ▸ sublist_cons_self front rest)
  window := .nil
  flight := by
    refine h.flight.frame (fun _ _ hs => hs) (fun q hq => .inl ?_) (.inl (nil_subset _))
    exact hp ▸ mem_cons_of_mem front hq
  closing :=
    have hl : r.policy.ending ≠ true := fun he => by
      simp [h.closing.drained he] at hp
    { h.closing with
      drained := fun he => absurd he hl
      restored := fun he => absurd he hl
      clean := fun _ _ s hs => absurd hs not_mem_nil }

theorem finish : Inv { r with policy := r.policy.finish, finished := true } where
  __ := h
  queue := h.queue.sublist (nil_sublist _)
  window := by
    rcases r.policy.finish_window with ⟨-, hw⟩ | ⟨-, hw⟩
    · exact hw ▸ h.sentWindow
    · exact hw ▸ h.window
  flight := by
    refine h.flight.frame (fun _ _ hs => hs) (fun q hq => absurd hq not_mem_nil) ?_
    rcases r.policy.finish_window with ⟨-, hw⟩ | ⟨-, hw⟩
    · exact .inr ((List.Perm.of_eq hw).subset)
    · exact .inl ((List.Perm.of_eq hw).subset)
  closing := { h.closing with
      finished := rfl
      drained := fun _ => rfl
      restored := fun _ hse => by
        rcases r.policy.finish_window with ⟨-, hw⟩ | ⟨hne, hw⟩
        · exact fun hnil => hse (hw.symm.trans hnil)
        · exact fun hnil => hne (hw.symm.trans hnil)
      clean := fun hl => Bool.noConfusion hl }

theorem undirty (he : r.policy.window = []) :
    Inv { r with policy := { r.policy with playlistDirty := false } } :=
  { h with
    closing := { h.closing with
      clean := fun _ _ s hs => absurd (he ▸ hs : s ∈ []) not_mem_nil } }

theorem outstanding_nil (hi : r.policy.inFlight = none) : r.outstanding = [] := by
  have hf := h.flight
  rw [hi] at hf
  generalize r.outstanding = out at hf
  cases hf
  rfl

theorem not_ended (hr : r.policy.stopped = none) (hi : r.policy.inFlight = none)
    (hc : c ∈ r.playlists) : c.ended = false := by
  rw [Bool.eq_false_iff]
  intro he
  rcases h.closing.last c hc he with hs | ⟨f, l, hf, -⟩
  · simp [hr] at hs
  · simp [hi] at hf

end

end Inv

end Restream.HlsUpload
