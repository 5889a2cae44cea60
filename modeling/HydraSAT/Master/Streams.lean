import HydraSAT.Master.Broadcaster
import HydraSAT.Master.Server

/-!
# Streams of timeout updates

`SubscribeTimeoutUpdates` subscribes with the worker id of its caller, serves the channel it got, and
unsubscribes that id when it returns.  The map is keyed by the worker id alone, but several streams of
one id may be open: a worker opens one for every task, and workers on different hosts may share an id.

* `Streams.step`: streams over the broadcaster;
* `Streams.Isolated`: every open stream has its channel in the map, and open;
* `Streams.isolated_iff`: a step keeps the streams isolated exactly if it does not subscribe or
  unsubscribe the id of another open stream.
-/

namespace HydraSAT.Master

open HydraSAT.Lib

/-! ### The code -/

/-- Where a stream stands. -/
inductive StreamPhase
  /-- In the loop that serves the channel. -/
  | serving
  /-- Returning: the context is done, a `Send` failed, or the channel is closed. -/
  | leaving
  /-- The deferred `Unsubscribe` has run. -/
  | finished
  deriving DecidableEq

structure Stream where
  identity : WorkerIdentity
  ch : ℕ
  phase : StreamPhase
  deriving DecidableEq

/-- The broadcaster and every stream ever opened. -/
structure Streams where
  broadcaster : Broadcaster
  streams : List Stream

/-- What happens. -/
inductive StreamAction
  | subscribe (w : WorkerIdentity)
  | leave (j : ℕ)
  | unsubscribe (j : ℕ)
  | broadcast (v : ℤ) (order : List ℕ)
  | turn
  | receive (ch : ℕ)

namespace Streams

/-- No stream, no subscriber. -/
def init : Streams := { broadcaster := .new, streams := [] }

/-- A stream leaves the given phase. -/
def stepStream (tb : Broadcaster) (st : Stream) : StreamPhase → Option (Broadcaster × Stream)
  | .serving =>
      if st.phase = .serving then some (tb, { st with phase := .leaving }) else none
  | .leaving =>
      if st.phase = .leaving then
        (tb.step (.unsubscribe st.identity.workerId)).map fun tb' => (tb', { st with phase := .finished })
      else none
  | .finished => none

/-- One step. -/
def step (s : Streams) : StreamAction → Option Streams
  | .subscribe w =>
      (s.broadcaster.step (.subscribe w.workerId)).map fun tb =>
        { broadcaster := tb, streams := s.streams ++ [⟨w, s.broadcaster.made, .serving⟩] }
  | .leave j => (stepThread stepStream s.broadcaster s.streams j .serving).map fun r => ⟨r.1, r.2⟩
  | .unsubscribe j => (stepThread stepStream s.broadcaster s.streams j .leaving).map fun r => ⟨r.1, r.2⟩
  | .broadcast v order =>
      (s.broadcaster.step (.broadcast v order)).map fun tb => { s with broadcaster := tb }
  | .turn => (s.broadcaster.step .turn).map fun tb => { s with broadcaster := tb }
  | .receive ch => (s.broadcaster.step (.receive ch)).map fun tb => { s with broadcaster := tb }

/-- **Every open stream has its channel**: registered under its id, and open. -/
def Isolated (s : Streams) : Prop :=
  ∀ st ∈ s.streams, st.phase = .serving →
    s.broadcaster.subscribers.lookup st.identity.workerId = some st.ch ∧
      (s.broadcaster.chans st.ch).closed = false

/-- The step does not subscribe or unsubscribe the worker id of another open stream. -/
def Separate (s : Streams) : StreamAction → Prop
  | .subscribe w => ∀ st ∈ s.streams, st.phase = .serving → st.identity.workerId ≠ w.workerId
  | .unsubscribe j => ∀ own, s.streams[j]? = some own → ∀ st ∈ s.streams, st.phase = .serving →
      st.identity.workerId ≠ own.identity.workerId
  | _ => True

/-- The moves. -/
inductive Move (s : Streams) : StreamAction → Streams → Prop
  | subscribe (w) : s.broadcaster.mutex = .free → Move s (.subscribe w)
      { broadcaster := s.broadcaster.subscribe w.workerId
        streams := s.streams ++ [⟨w, s.broadcaster.made, .serving⟩] }
  | leave {pre st post} : s.streams = pre ++ st :: post → st.phase = .serving →
      Move s (.leave pre.length)
        { s with streams := pre ++ { st with phase := .leaving } :: post }
  | unsubscribe {pre st post} : s.streams = pre ++ st :: post → st.phase = .leaving →
      s.broadcaster.mutex = .free → Move s (.unsubscribe pre.length)
        { broadcaster := s.broadcaster.unsubscribe st.identity.workerId
          streams := pre ++ { st with phase := .finished } :: post }
  /-- Broadcasts and receives leave the map alone, and close nothing. -/
  | other {act tb} : (∀ w, act ≠ .subscribe w) → (∀ j, act ≠ .unsubscribe j) →
      (∃ e, s.broadcaster.step e = some tb) → tb.subscribers = s.broadcaster.subscribers →
      (∀ ch, (tb.chans ch).closed = (s.broadcaster.chans ch).closed) →
      Move s act { s with broadcaster := tb }

end Streams

namespace Broadcaster

/-- Replacing a channel by an equally open one closes nothing. -/
theorem closed_setChan {tb : Broadcaster} {ch : ℕ} {c : Chan}
    (hc : c.closed = (tb.chans ch).closed) (x : ℕ) :
    ((tb.setChan ch c).chans x).closed = (tb.chans x).closed := by
  by_cases hx : x = ch
  · rw [hx]
    show (Function.update tb.chans ch c ch).closed = _
    rw [Function.update_self, hc]
  · show (Function.update tb.chans ch c x).closed = _
    rw [Function.update_of_ne hx]

theorem turn_closes_nothing {tb tb' : Broadcaster} (hs : tb.step .turn = some tb') :
    tb'.subscribers = tb.subscribers ∧ ∀ ch, (tb'.chans ch).closed = (tb.chans ch).closed := by
  simp only [Broadcaster.step] at hs
  split at hs
  · cases hs
  · split at hs
    · obtain rfl := Option.some.inj hs
      exact ⟨rfl, closed_setChan rfl⟩
    · obtain rfl := Option.some.inj hs
      split <;> exact ⟨rfl, fun _ => rfl⟩
  · split at hs
    · obtain rfl := Option.some.inj hs
      exact ⟨rfl, fun _ => rfl⟩
    · split at hs
      · obtain rfl := Option.some.inj hs
        exact ⟨rfl, closed_setChan rfl⟩
      · obtain rfl := Option.some.inj hs
        exact ⟨rfl, fun _ => rfl⟩

theorem receive_closes_nothing {tb tb' : Broadcaster} {ch : ℕ}
    (hs : tb.step (.receive ch) = some tb') :
    tb'.subscribers = tb.subscribers ∧ ∀ x, (tb'.chans x).closed = (tb.chans x).closed := by
  simp only [Broadcaster.step] at hs
  split at hs
  · obtain rfl := Option.some.inj hs
    exact ⟨rfl, closed_setChan rfl⟩
  · obtain ⟨-, hs⟩ := Option.ite_none_right_eq_some.mp hs
    obtain rfl := Option.some.inj hs
    exact ⟨rfl, fun _ => rfl⟩

theorem broadcast_cases {tb tb' : Broadcaster} {v : ℤ} {order : List ℕ}
    (hs : tb.step (.broadcast v order) = some tb') :
    order.Perm tb.channels ∧ tb' = tb.broadcast v order := by
  simp only [Broadcaster.step] at hs
  split at hs
  · obtain ⟨horder, hs⟩ := Option.ite_none_right_eq_some.mp hs
    exact ⟨horder, (Option.some.inj hs).symm⟩
  · cases hs

end Broadcaster

namespace Streams

theorem step_cases {s s' : Streams} {act : StreamAction} (hs : s.step act = some s') :
    s.Move act s' := by
  cases act with
  | subscribe w =>
      obtain ⟨tb, htb, rfl⟩ := Option.map_eq_some_iff.mp hs
      simp only [Broadcaster.step] at htb
      split at htb
      · rename_i hfree
        obtain rfl := Option.some.inj htb
        exact .subscribe w hfree
      · cases htb
  | leave j =>
      obtain ⟨⟨tb, sts⟩, hp, rfl⟩ := Option.map_eq_some_iff.mp hs
      obtain ⟨pre, st, st', post, heq, rfl, rfl, hstep⟩ := stepThread_cases hp
      obtain ⟨hphase, hstep⟩ := Option.ite_none_right_eq_some.mp hstep
      obtain ⟨rfl, rfl⟩ := Prod.mk.inj (Option.some.inj hstep)
      exact .leave heq hphase
  | unsubscribe j =>
      obtain ⟨⟨tb, sts⟩, hp, rfl⟩ := Option.map_eq_some_iff.mp hs
      obtain ⟨pre, st, st', post, heq, rfl, rfl, hstep⟩ := stepThread_cases hp
      obtain ⟨hphase, hstep⟩ := Option.ite_none_right_eq_some.mp hstep
      obtain ⟨tb', htb, hpair⟩ := Option.map_eq_some_iff.mp hstep
      obtain ⟨rfl, rfl⟩ := Prod.mk.inj hpair
      simp only [Broadcaster.step] at htb
      split at htb
      · rename_i hfree
        obtain rfl := Option.some.inj htb
        exact .unsubscribe heq hphase hfree
      · cases htb
  | broadcast v order =>
      obtain ⟨tb, htb, rfl⟩ := Option.map_eq_some_iff.mp hs
      obtain ⟨-, rfl⟩ := Broadcaster.broadcast_cases htb
      refine .other (fun w h => ?_) (fun j h => ?_) ⟨_, htb⟩ rfl fun ch => ?_
      · cases h
      · cases h
      · simp only [Broadcaster.broadcast]
        split <;> rfl
  | turn =>
      obtain ⟨tb, htb, rfl⟩ := Option.map_eq_some_iff.mp hs
      obtain ⟨hsubs, hclosed⟩ := Broadcaster.turn_closes_nothing htb
      refine .other (fun w h => ?_) (fun j h => ?_) ⟨_, htb⟩ hsubs hclosed
      · cases h
      · cases h
  | receive ch =>
      obtain ⟨tb, htb, rfl⟩ := Option.map_eq_some_iff.mp hs
      obtain ⟨hsubs, hclosed⟩ := Broadcaster.receive_closes_nothing htb
      refine .other (fun w h => ?_) (fun j h => ?_) ⟨_, htb⟩ hsubs hclosed
      · cases h
      · cases h

/-! ### Which steps keep the streams isolated -/

/-- The broadcaster under the streams is a broadcaster. -/
theorem sound {guard : Streams → StreamAction → Prop} {s : Streams} (hr : Reaches step guard init s) :
    s.broadcaster.Sound := by
  refine hr.invariant (fun s => s.broadcaster.Sound) Broadcaster.sound_new ?_
  intro s act s' h _ hs
  cases step_cases hs with
  | subscribe w hfree => exact h.subscribe hfree w.workerId
  | leave _ _ => exact h
  | unsubscribe _ _ hfree => exact h.unsubscribe hfree _
  | other _ _ he _ _ =>
      obtain ⟨e, he⟩ := he
      exact h.step he

/-- Subscribing an id that no open stream has harms none of them. -/
theorem Isolated.subscribe {s : Streams} (h : s.Isolated) (hsound : s.broadcaster.Sound)
    {w : WorkerIdentity} (hsep : s.Separate (.subscribe w)) :
    Isolated { broadcaster := s.broadcaster.subscribe w.workerId
               streams := s.streams ++ [⟨w, s.broadcaster.made, .serving⟩] } := by
  intro st hst hserving
  rcases List.mem_append.mp hst with hst | hst
  · obtain ⟨hlookup, hopen⟩ := h st hst hserving
    have hlt := (hsound.opened st.ch ⟨_, hlookup⟩).1
    refine ⟨(AList.lookup_insert_ne (hsep st hst hserving)).trans hlookup, ?_⟩
    show (Function.update s.broadcaster.chans s.broadcaster.made Chan.new st.ch).closed = false
    rw [Function.update_of_ne (Nat.ne_of_lt hlt)]
    exact hopen
  · rw [List.mem_singleton.mp hst]
    refine ⟨AList.lookup_insert _, ?_⟩
    show (Function.update s.broadcaster.chans s.broadcaster.made Chan.new s.broadcaster.made).closed = _
    rw [Function.update_self]
    rfl

/-- Unsubscribing an id that no open stream has harms none of them. -/
theorem Isolated.unsubscribe {s : Streams} (h : s.Isolated) (hsound : s.broadcaster.Sound)
    {pre post : List Stream} {own : Stream} (heq : s.streams = pre ++ own :: post)
    (hsep : s.Separate (.unsubscribe pre.length)) :
    Isolated { broadcaster := s.broadcaster.unsubscribe own.identity.workerId
               streams := pre ++ { own with phase := .finished } :: post } := by
  intro st hst hserving
  have hne : st ≠ { own with phase := .finished } := by
    intro heq'
    rw [heq'] at hserving
    exact StreamPhase.noConfusion hserving
  have hold : st ∈ s.streams := by
    rw [heq]
    exact mem_exchange hst hne
  obtain ⟨hlookup, hopen⟩ := h st hold hserving
  have hid := hsep own (by simp [heq]) st hold hserving
  show (s.broadcaster.unsubscribe own.identity.workerId).subscribers.lookup _ = _ ∧
    ((s.broadcaster.unsubscribe own.identity.workerId).chans st.ch).closed = false
  unfold Broadcaster.unsubscribe
  split
  · rename_i c hc
    have hch : st.ch ≠ c := fun heq' => hid (hsound.distinct _ _ c (heq' ▸ hlookup) hc)
    refine ⟨(AList.lookup_erase_ne hid).trans hlookup, ?_⟩
    show (Function.update s.broadcaster.chans c _ st.ch).closed = false
    rw [Function.update_of_ne hch]
    exact hopen
  · exact ⟨hlookup, hopen⟩

/-- **A step keeps the streams isolated exactly if it is separate.** -/
theorem Isolated.step_iff {s s' : Streams} {act : StreamAction} (h : s.Isolated)
    (hsound : s.broadcaster.Sound) (hs : s.step act = some s') : s'.Isolated ↔ s.Separate act := by
  cases step_cases hs with
  | subscribe w _ =>
      refine ⟨fun h' st hst hserving hid => ?_, h.subscribe hsound⟩
      -- the open stream of the same id loses its place to the new channel
      have hlookup := (h' st (List.mem_append_left _ hst) hserving).1
      have hnew : (s.broadcaster.subscribe w.workerId).subscribers.lookup st.identity.workerId =
          some s.broadcaster.made := by
        rw [hid]
        exact AList.lookup_insert _
      have hch : st.ch = s.broadcaster.made := Option.some.inj (hlookup.symm.trans hnew)
      exact Nat.lt_irrefl _ (hch ▸ (hsound.opened st.ch ⟨_, (h st hst hserving).1⟩).1)
  | @leave pre st post heq hphase =>
      refine iff_of_true ?_ trivial
      intro u hu hserving
      refine h u ?_ hserving
      rw [heq]
      refine mem_exchange hu fun heq' => ?_
      rw [heq'] at hserving
      exact StreamPhase.noConfusion hserving
  | @unsubscribe pre own post heq hphase _ =>
      refine ⟨fun h' own' hown st hst hserving hid => ?_, h.unsubscribe hsound heq⟩
      -- the open stream of the same id loses its entry
      obtain rfl : own = own' := by simpa [heq] using hown
      have hst' : st ∈ pre ++ { own with phase := .finished } :: post := by
        rw [heq] at hst
        refine mem_exchange hst fun heq' => ?_
        rw [heq', hphase] at hserving
        exact StreamPhase.noConfusion hserving
      have hlookup := (h' st hst' hserving).1
      have hold := (h st hst hserving).1
      have hgone : (s.broadcaster.unsubscribe own.identity.workerId).subscribers.lookup
          st.identity.workerId = none := by
        rw [hid] at hold ⊢
        unfold Broadcaster.unsubscribe
        rw [hold]
        exact AList.lookup_erase _ _
      exact Option.some_ne_none _ (hlookup.symm.trans hgone)
  | other hsub hunsub _ hsubs hclosed =>
      have hsep : s.Separate act := by
        cases act with
        | subscribe w => exact absurd rfl (hsub w)
        | unsubscribe j => exact absurd rfl (hunsub j)
        | _ => trivial
      refine iff_of_true ?_ hsep
      intro st hst hserving
      obtain ⟨hlookup, hopen⟩ := h st hst hserving
      exact ⟨(congrArg (fun m => AList.lookup _ m) hsubs).trans hlookup, (hclosed st.ch).trans hopen⟩

/-- An isolated stream is offered every broadcast. -/
theorem Isolated.offered {s s' : Streams} (h : s.Isolated) {v : ℤ} {order : List ℕ}
    (hs : s.step (.broadcast v order) = some s') {st : Stream} (hst : st ∈ s.streams)
    (hserving : st.phase = .serving) :
    (s'.broadcaster.chans st.ch).offered = (s.broadcaster.chans st.ch).offered ++ [v] := by
  obtain ⟨tb, htb, rfl⟩ := Option.map_eq_some_iff.mp hs
  obtain ⟨horder, rfl⟩ := Broadcaster.broadcast_cases htb
  have hin : st.ch ∈ order :=
    horder.mem_iff.mpr (Broadcaster.mem_channels.mpr ⟨_, (h st hst hserving).1⟩)
  simp only [Broadcaster.broadcast, if_pos hin]

/-- **Streams are isolated exactly as long as no step is for the id of another open stream.**  In a run
of such steps every open stream has its channel registered and open, and is offered every broadcast;
the first other step breaks this. -/
theorem isolated_iff {s : Streams} (hr : Reaches step Separate init s) :
    s.Isolated ∧
      (∀ v order s', s.step (.broadcast v order) = some s' → ∀ st ∈ s.streams, st.phase = .serving →
        (s'.broadcaster.chans st.ch).offered = (s.broadcaster.chans st.ch).offered ++ [v]) ∧
      ∀ act s', s.step act = some s' → (s'.Isolated ↔ s.Separate act) := by
  have h : s.Isolated := by
    refine hr.invariant' Isolated (fun st hst => absurd hst List.not_mem_nil) ?_
    intro s act s' hr ih hg hs
    exact (ih.step_iff (sound hr) hs).mpr hg
  exact ⟨h, fun v order s' hs st hst hserving => h.offered hs hst hserving,
    fun act s' hs => h.step_iff (sound hr) hs⟩

/-- Two workers on two hosts. -/
def onHost (workerId hostname : String) : WorkerIdentity :=
  { workerId := workerId, hostname := hostname }

/-- Two streams of different ids; the first is closed. -/
def twoWorkers : List StreamAction :=
  [.subscribe (onHost "worker-01" "node-1"), .subscribe (onHost "worker-02" "node-2"), .leave 0,
    .unsubscribe 0]

/-- `Separate`, evaluated. -/
def separateCheck (s : Streams) : StreamAction → Bool
  | .subscribe w => s.streams.all fun st =>
      decide (st.phase = .serving → st.identity.workerId ≠ w.workerId)
  | .unsubscribe j =>
      match s.streams[j]? with
      | some own => s.streams.all fun st =>
          decide (st.phase = .serving → st.identity.workerId ≠ own.identity.workerId)
      | none => true
  | _ => true

theorem separate_of_check {s : Streams} {act : StreamAction} (h : s.separateCheck act = true) :
    s.Separate act := by
  cases act with
  | subscribe w =>
      intro st hst
      exact of_decide_eq_true (List.all_eq_true.mp h st hst)
  | unsubscribe j =>
      intro own hown st hst
      simp only [separateCheck, hown] at h
      exact of_decide_eq_true (List.all_eq_true.mp h st hst)
  | _ => trivial

theorem isolated_iff_twoWorkers :
    ∃ s : Streams, s.streams.map (·.phase) = [.finished, .serving] ∧ s.Isolated := by
  have hrun : (exec (fun s a => if separateCheck s a then step s a else none) init twoWorkers).map
      (fun s => s.streams.map (·.phase)) = some [.finished, .serving] := by
    decide +kernel
  obtain ⟨s, hs, hphases⟩ := Option.map_eq_some_iff.mp hrun
  have hr := Reaches.of_exec_checked (fun _ _ => separate_of_check) hs
  exact ⟨s, hphases, (isolated_iff hr).1⟩

/-! ### A stream cut off -/

/-- Two workers on two hosts share an id; when the first stream ends, its `Unsubscribe` closes the
channel of the second. -/
def sharedId : List StreamAction :=
  [.subscribe (onHost "worker-01" "node-1"), .subscribe (onHost "worker-01" "node-2"), .leave 0,
    .unsubscribe 0]

/-- **Closing one stream closes the channel of another.** -/
theorem cut_off :
    ∃ s st, Reachable step init s ∧ st ∈ s.streams ∧ st.phase = .serving ∧
      s.broadcaster.subscribers.lookup st.identity.workerId = none ∧
      (s.broadcaster.chans st.ch).closed = true := by
  have hrun : (exec step init sharedId).map (fun s => (s.streams[1]?,
      s.broadcaster.subscribers.lookup "worker-01", (s.broadcaster.chans 1).closed)) =
        some (some ⟨onHost "worker-01" "node-2", 1, .serving⟩, none, true) := by
    decide +kernel
  obtain ⟨s, hs, htriple⟩ := Option.map_eq_some_iff.mp hrun
  obtain ⟨hst, hpair⟩ := Prod.mk.inj htriple
  obtain ⟨hlookup, hclosed⟩ := Prod.mk.inj hpair
  exact ⟨s, _, Reaches.of_exec (fun _ _ _ => trivial) hs, List.mem_of_getElem? hst, rfl, hlookup, hclosed⟩

end Streams

end HydraSAT.Master
