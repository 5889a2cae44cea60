import Mathlib.Data.List.AList
import Mathlib.Data.List.Perm.Basic
import HydraSAT.Lib.Transition

/-!
# The timeout broadcaster

`timeout_broadcaster.go`: a map from worker ids to channels with one slot.  `Subscribe`, `Unsubscribe`
and `Broadcast` hold `tb.mu`; a `Broadcast` visits the channels of the map in some order, empties each
and fills it with the new value, and receivers take values at any moment, also in between.

* `Broadcaster.step`: the code, one atomic step at a time, with the outcomes that must not happen (a
  send on a closed channel, a second close, the `default` branch of the push) recorded;
* `Broadcaster.Sound`: the invariant;
* `Broadcaster.delivers_freshest`: the channels in the map are open, nothing bad has happened, a running
  `Broadcast` can always go on and comes to its end, channels deliver subsequences of what was
  broadcast, and the newest value is delivered last or waiting.
-/

namespace HydraSAT.Master

open HydraSAT.Lib

/-! ### The code -/

/-- A channel, with the history of what it was offered and what it delivered. -/
structure Chan where
  buffer : List ℤ
  closed : Bool
  /-- The values of the broadcasts made while the channel was in the map. -/
  offered : List ℤ
  /-- The values received from the channel by its stream. -/
  delivered : List ℤ

/-- `make(chan *pb.TimeoutUpdate, 1)`. -/
def Chan.new : Chan := { buffer := [], closed := false, offered := [], delivered := [] }

/-- Slots of a channel. -/
def chanCapacity : ℕ := 1

/-- Who holds `tb.mu`, between atomic steps. -/
inductive Mutex
  | free
  /-- A `Broadcast` of `v`, in the flush loop of channel `ch`, with the channels still to visit. -/
  | flushing (v : ℤ) (ch : ℕ) (rest : List ℕ)
  /-- A `Broadcast` of `v`, at the push to channel `ch`. -/
  | pushing (v : ℤ) (ch : ℕ) (rest : List ℕ)

/-- The channels the `Broadcast` has not pushed to yet. -/
def Mutex.pending : Mutex → List ℕ
  | .free => []
  | .flushing _ ch rest => ch :: rest
  | .pushing _ ch rest => ch :: rest

/-- Go on with the next channel, or unlock. -/
def Mutex.next (v : ℤ) : List ℕ → Mutex
  | [] => .free
  | ch :: rest => .flushing v ch rest

structure Broadcaster where
  /-- The channels made so far are those below `made`. -/
  chans : ℕ → Chan
  made : ℕ
  subscribers : AList (fun _ : String => ℕ)
  mutex : Mutex
  /-- A send on a closed channel, or a close of one. -/
  panicked : Bool
  /-- The push took its `default` branch. -/
  skipped : Bool

/-- `NewTimeoutBroadcaster`. -/
def Broadcaster.new : Broadcaster :=
  { chans := fun _ => .new, made := 0, subscribers := ∅, mutex := .free, panicked := false
    skipped := false }

/-- What happens. -/
inductive BroadcasterEvent
  | subscribe (workerID : String)
  | unsubscribe (workerID : String)
  /-- `Broadcast(v)` takes the lock; the range statement will visit the channels in this order. -/
  | broadcast (v : ℤ) (order : List ℕ)
  /-- The next step of the running `Broadcast`. -/
  | turn
  /-- A stream receives from its channel. -/
  | receive (ch : ℕ)

/-- What the event broadcasts. -/
def BroadcasterEvent.values : BroadcasterEvent → List ℤ
  | .broadcast v _ => [v]
  | _ => []

namespace Broadcaster

/-- Replace one channel. -/
def setChan (tb : Broadcaster) (ch : ℕ) (c : Chan) : Broadcaster :=
  { tb with chans := Function.update tb.chans ch c }

/-- `Subscribe`. -/
def subscribe (tb : Broadcaster) (workerID : String) : Broadcaster :=
  { tb with
    chans := Function.update tb.chans tb.made .new
    made := tb.made + 1
    subscribers := tb.subscribers.insert workerID tb.made }

/-- `Unsubscribe`. -/
def unsubscribe (tb : Broadcaster) (workerID : String) : Broadcaster :=
  match tb.subscribers.lookup workerID with
  | some ch =>
      { tb with
        chans := Function.update tb.chans ch { tb.chans ch with closed := true }
        subscribers := tb.subscribers.erase workerID
        panicked := tb.panicked || (tb.chans ch).closed }
  | none => tb

/-- The start of `Broadcast`. -/
def broadcast (tb : Broadcaster) (v : ℤ) (order : List ℕ) : Broadcaster :=
  { tb with
    chans := fun ch =>
      if ch ∈ order then { tb.chans ch with offered := (tb.chans ch).offered ++ [v] }
      else tb.chans ch
    mutex := .next v order }

/-- The channels of the map. -/
def channels (tb : Broadcaster) : List ℕ := tb.subscribers.entries.map fun e => e.2

/-- One atomic step. -/
def step (tb : Broadcaster) : BroadcasterEvent → Option Broadcaster
  | .subscribe workerID =>
      match tb.mutex with
      | .free => some (tb.subscribe workerID)
      | _ => none
  | .unsubscribe workerID =>
      match tb.mutex with
      | .free => some (tb.unsubscribe workerID)
      | _ => none
  | .broadcast v order =>
      match tb.mutex with
      | .free => if order.Perm tb.channels then some (tb.broadcast v order) else none
      | _ => none
  | .turn =>
      match tb.mutex with
      | .free => none
      | .flushing v ch rest =>
          match (tb.chans ch).buffer with
          | _ :: buffer => some (tb.setChan ch { tb.chans ch with buffer := buffer })
          -- a receive from a closed channel always succeeds, and the loop goes on
          | [] => some (if (tb.chans ch).closed then tb else { tb with mutex := .pushing v ch rest })
      | .pushing v ch rest =>
          if (tb.chans ch).closed then some { tb with panicked := true, mutex := .next v rest }
          else if (tb.chans ch).buffer.length < chanCapacity then
            some { tb.setChan ch { tb.chans ch with buffer := (tb.chans ch).buffer ++ [v] } with
              mutex := .next v rest }
          else some { tb with skipped := true, mutex := .next v rest }
  | .receive ch =>
      match (tb.chans ch).buffer with
      | v :: buffer =>
          some (tb.setChan ch
            { tb.chans ch with buffer := buffer, delivered := (tb.chans ch).delivered ++ [v] })
      -- the stream sees the close and ends
      | [] => if (tb.chans ch).closed then some tb else none

/-! ### The invariant -/

end Broadcaster

namespace Chan

/-- What is delivered or waiting was broadcast, in this order. -/
def Ordered (c : Chan) : Prop := (c.delivered ++ c.buffer).Sublist c.offered

/-- The newest value is the last delivered or waiting one. -/
def Fresh (c : Chan) : Prop := (c.delivered ++ c.buffer).getLast? = c.offered.getLast?

/-- The channel is offered `v` and does not have it yet. -/
def Behind (v : ℤ) (c : Chan) : Prop :=
  ∃ old, c.offered = old ++ [v] ∧ (c.delivered ++ c.buffer).Sublist old

theorem Behind.ordered {v : ℤ} {c : Chan} (h : c.Behind v) : c.Ordered := by
  obtain ⟨old, hoffered, hsub⟩ := h
  rw [Ordered, hoffered]
  exact hsub.trans (List.sublist_append_left old [v])

/-- Flushing discards the waiting value. -/
theorem Behind.flush {v x : ℤ} {c : Chan} {buffer : List ℤ} (h : c.Behind v)
    (hbuffer : c.buffer = x :: buffer) : Behind v { c with buffer := buffer } := by
  obtain ⟨old, hoffered, hsub⟩ := h
  refine ⟨old, hoffered, List.Sublist.trans ?_ hsub⟩
  rw [hbuffer]
  exact (List.Sublist.refl _).append (List.sublist_cons_self x buffer)

/-- Pushing the offered value onto the flushed channel makes it fresh. -/
theorem Behind.push {v : ℤ} {c : Chan} (h : c.Behind v) (hbuffer : c.buffer = []) :
    Ordered { c with buffer := c.buffer ++ [v] } ∧ Fresh { c with buffer := c.buffer ++ [v] } := by
  obtain ⟨old, hoffered, hsub⟩ := h
  rw [hbuffer, List.append_nil] at hsub
  constructor
  · show (c.delivered ++ (c.buffer ++ [v])).Sublist c.offered
    rw [hbuffer, hoffered, List.nil_append]
    exact hsub.append (List.Sublist.refl [v])
  · show (c.delivered ++ (c.buffer ++ [v])).getLast? = c.offered.getLast?
    rw [hbuffer, hoffered, List.nil_append, List.getLast?_concat, List.getLast?_concat]

/-- The channel after a receive. -/
def take (c : Chan) (v : ℤ) (buffer : List ℤ) : Chan :=
  { c with buffer := buffer, delivered := c.delivered ++ [v] }

/-- A receive moves a value from waiting to delivered. -/
theorem take_line {c : Chan} {v : ℤ} {buffer : List ℤ} (hbuffer : c.buffer = v :: buffer) :
    (c.take v buffer).delivered ++ (c.take v buffer).buffer = c.delivered ++ c.buffer := by
  show (c.delivered ++ [v]) ++ buffer = c.delivered ++ c.buffer
  rw [hbuffer, List.append_assoc, List.singleton_append]

end Chan

/-- The running `Broadcast` still owes the channel the value `v`. -/
def Mutex.Owes (v : ℤ) (ch : ℕ) : Mutex → Prop
  | .free => False
  | .flushing w c rest => w = v ∧ ch ∈ c :: rest
  | .pushing w c rest => w = v ∧ ch ∈ c :: rest

theorem Mutex.owes_next {v w : ℤ} {ch : ℕ} {rest : List ℕ} :
    (Mutex.next w rest).Owes v ch ↔ w = v ∧ ch ∈ rest := by
  cases rest with
  | nil => exact ⟨fun h => h.elim, fun h => absurd h.2 List.not_mem_nil⟩
  | cons c rest => exact Iff.rfl

theorem Mutex.pending_next (v : ℤ) (rest : List ℕ) : (Mutex.next v rest).pending = rest := by
  cases rest <;> rfl

namespace Broadcaster

/-- The channel is in the map. -/
def Registered (tb : Broadcaster) (ch : ℕ) : Prop := ∃ id, tb.subscribers.lookup id = some ch

/-- What holds of every channel. -/
structure ChanOk (tb : Broadcaster) (ch : ℕ) : Prop where
  oneSlot : (tb.chans ch).buffer.length ≤ chanCapacity
  ordered : (tb.chans ch).Ordered
  fresh : tb.Registered ch → ch ∉ tb.mutex.pending → (tb.chans ch).Fresh
  behind : ∀ v, tb.mutex.Owes v ch → (tb.chans ch).Behind v

/-- **The invariant.** -/
structure Sound (tb : Broadcaster) : Prop where
  opened : ∀ ch, tb.Registered ch → ch < tb.made ∧ (tb.chans ch).closed = false
  distinct : ∀ id id' ch, tb.subscribers.lookup id = some ch → tb.subscribers.lookup id' = some ch →
    id = id'
  pending : tb.mutex.pending.Nodup ∧ ∀ ch ∈ tb.mutex.pending, tb.Registered ch
  flushed : ∀ v ch rest, tb.mutex = .pushing v ch rest → (tb.chans ch).buffer = []
  chans : ∀ ch, tb.ChanOk ch
  calm : tb.panicked = false ∧ tb.skipped = false

theorem mem_channels {tb : Broadcaster} {ch : ℕ} : ch ∈ tb.channels ↔ tb.Registered ch := by
  unfold channels Registered
  rw [List.mem_map]
  constructor
  · rintro ⟨⟨id, c⟩, he, rfl⟩
    exact ⟨id, (List.mem_dlookup_iff tb.subscribers.nodupKeys).mpr he⟩
  · rintro ⟨id, hid⟩
    exact ⟨⟨id, ch⟩, (List.mem_dlookup_iff tb.subscribers.nodupKeys).mp hid, rfl⟩

/-- No two entries of the map have the same channel. -/
theorem Sound.nodup_channels {tb : Broadcaster} (h : tb.Sound) : tb.channels.Nodup := by
  unfold channels
  refine List.Nodup.map_on ?_ tb.subscribers.nodupKeys.nodup
  rintro ⟨id, c⟩ he ⟨id', c'⟩ he' (rfl : c = c')
  have hid := (List.mem_dlookup_iff tb.subscribers.nodupKeys).mpr he
  have hid' := (List.mem_dlookup_iff tb.subscribers.nodupKeys).mpr he'
  obtain rfl := h.distinct id id' c hid hid'
  rfl

theorem sound_new : Broadcaster.new.Sound where
  opened := fun ch ⟨_, hid⟩ => absurd hid.symm (Option.some_ne_none ch)
  distinct := fun _ _ ch hid => absurd hid.symm (Option.some_ne_none ch)
  pending := ⟨List.nodup_nil, fun _ hch => absurd hch List.not_mem_nil⟩
  flushed := fun _ _ _ hm => Mutex.noConfusion hm
  chans := fun _ => ⟨Nat.zero_le _, List.Sublist.refl _, fun _ _ => rfl, fun _ h => h.elim⟩
  calm := ⟨rfl, rfl⟩

/-! ### Each operation keeps the invariant -/

/-- `Subscribe` registers a channel that nobody else has. -/
theorem Sound.subscribe {tb : Broadcaster} (h : tb.Sound) (hfree : tb.mutex = .free)
    (workerID : String) : (tb.subscribe workerID).Sound := by
  have hlookup : ∀ id ch, (tb.subscribe workerID).subscribers.lookup id = some ch →
      (id = workerID ∧ ch = tb.made) ∨ (id ≠ workerID ∧ tb.subscribers.lookup id = some ch) := by
    intro id ch hid
    by_cases heq : id = workerID
    · rw [heq] at hid
      exact .inl ⟨heq, (Option.some.inj ((AList.lookup_insert _).symm.trans hid)).symm⟩
    · exact .inr ⟨heq, (AList.lookup_insert_ne heq).symm.trans hid⟩
  have hold : ∀ ch, ch ≠ tb.made → (tb.subscribe workerID).chans ch = tb.chans ch :=
    fun ch hne => Function.update_of_ne hne _ _
  have hnew : (tb.subscribe workerID).chans tb.made = .new := Function.update_self _ _ _
  have hregistered : ∀ ch, (tb.subscribe workerID).Registered ch →
      ch = tb.made ∨ (ch ≠ tb.made ∧ tb.Registered ch) := by
    rintro ch ⟨id, hid⟩
    rcases hlookup id ch hid with ⟨-, heq⟩ | ⟨-, hid⟩
    · exact .inl heq
    · exact .inr ⟨Nat.ne_of_lt (h.opened ch ⟨id, hid⟩).1, id, hid⟩
  have hnone : ∀ v ch, ¬(tb.subscribe workerID).mutex.Owes v ch := by
    intro v ch howes
    have howes' : tb.mutex.Owes v ch := howes
    rw [hfree] at howes'
    exact howes'
  refine ⟨?_, ?_, ?_, ?_, ?_, h.calm⟩
  · intro ch hch
    rcases hregistered ch hch with rfl | ⟨hne, hch⟩
    · exact ⟨Nat.lt_succ_self _, by rw [hnew]; rfl⟩
    · obtain ⟨hlt, hopen⟩ := h.opened ch hch
      exact ⟨Nat.lt_succ_of_lt hlt, by rw [hold ch hne]; exact hopen⟩
  · intro id id' ch hid hid'
    rcases hlookup id ch hid with ⟨rfl, rfl⟩ | ⟨-, hid⟩
    · rcases hlookup id' _ hid' with ⟨rfl, -⟩ | ⟨-, hid'⟩
      · rfl
      · exact absurd (h.opened _ ⟨id', hid'⟩).1 (lt_irrefl _)
    · rcases hlookup id' ch hid' with ⟨-, rfl⟩ | ⟨-, hid'⟩
      · exact absurd (h.opened _ ⟨id, hid⟩).1 (lt_irrefl _)
      · exact h.distinct id id' ch hid hid'
  · show tb.mutex.pending.Nodup ∧ ∀ ch ∈ tb.mutex.pending, _
    rw [hfree]
    exact ⟨List.nodup_nil, fun _ hch => absurd hch List.not_mem_nil⟩
  · intro v ch rest hm
    exact Mutex.noConfusion (hfree.symm.trans hm)
  · intro ch
    by_cases hch : ch = tb.made
    · subst hch
      exact ⟨by rw [hnew]; exact Nat.zero_le _, by rw [hnew]; exact List.Sublist.refl _,
        fun _ _ => by rw [hnew]; rfl, fun v howes => absurd howes (hnone v _)⟩
    · refine ⟨?_, ?_, fun hreg hpend => ?_, fun v howes => absurd howes (hnone v ch)⟩
      · rw [hold ch hch]
        exact (h.chans ch).oneSlot
      · rw [hold ch hch]
        exact (h.chans ch).ordered
      · rw [hold ch hch]
        exact (h.chans ch).fresh ((hregistered ch hreg).resolve_left hch).2 hpend

/-- `Unsubscribe` closes an open channel that is then in the map no more. -/
theorem Sound.unsubscribe {tb : Broadcaster} (h : tb.Sound) (hfree : tb.mutex = .free)
    (workerID : String) : (tb.unsubscribe workerID).Sound := by
  unfold Broadcaster.unsubscribe
  split
  · rename_i c hc
    have hopen := (h.opened c ⟨workerID, hc⟩).2
    have hlookup : ∀ id ch, (tb.subscribers.erase workerID).lookup id = some ch →
        id ≠ workerID ∧ tb.subscribers.lookup id = some ch := by
      intro id ch hid
      have hne : id ≠ workerID := by
        rintro rfl
        rw [AList.lookup_erase] at hid
        exact nomatch hid
      exact ⟨hne, (AList.lookup_erase_ne hne).symm.trans hid⟩
    have hother : ∀ id ch, (tb.subscribers.erase workerID).lookup id = some ch → ch ≠ c := by
      intro id ch hid heq
      obtain ⟨hne, hid⟩ := hlookup id ch hid
      exact hne (h.distinct id workerID c (heq ▸ hid) hc)
    have hbuffers : ∀ ch, (Function.update tb.chans c { tb.chans c with closed := true } ch).buffer =
          (tb.chans ch).buffer ∧
        (Function.update tb.chans c { tb.chans c with closed := true } ch).offered =
          (tb.chans ch).offered ∧
        (Function.update tb.chans c { tb.chans c with closed := true } ch).delivered =
          (tb.chans ch).delivered := by
      intro ch
      by_cases hch : ch = c
      · subst hch
        rw [Function.update_self]
        exact ⟨rfl, rfl, rfl⟩
      · rw [Function.update_of_ne hch]
        exact ⟨rfl, rfl, rfl⟩
    refine ⟨?_, ?_, ?_, ?_, ?_, ?_, h.calm.2⟩
    · rintro ch ⟨id, hid⟩
      have hne := hother id ch hid
      obtain ⟨hlt, hclosed⟩ := h.opened ch ⟨id, (hlookup id ch hid).2⟩
      refine ⟨hlt, ?_⟩
      show (Function.update tb.chans c { tb.chans c with closed := true } ch).closed = false
      rw [Function.update_of_ne hne]
      exact hclosed
    · intro id id' ch hid hid'
      exact h.distinct id id' ch (hlookup id ch hid).2 (hlookup id' ch hid').2
    · show tb.mutex.pending.Nodup ∧ ∀ ch ∈ tb.mutex.pending, _
      rw [hfree]
      exact ⟨List.nodup_nil, fun _ hch => absurd hch List.not_mem_nil⟩
    · intro v ch rest hm
      exact Mutex.noConfusion (hfree.symm.trans hm)
    · intro ch
      obtain ⟨hbuffer, hoffered, hdelivered⟩ := hbuffers ch
      refine ⟨?_, ?_, fun ⟨id, hid⟩ hpend => ?_, fun v howes => ?_⟩
      · rw [hbuffer]
        exact (h.chans ch).oneSlot
      · rw [Chan.Ordered, hbuffer, hoffered, hdelivered]
        exact (h.chans ch).ordered
      · rw [Chan.Fresh, hbuffer, hoffered, hdelivered]
        exact (h.chans ch).fresh ⟨id, (hlookup id ch hid).2⟩ hpend
      · have howes' : tb.mutex.Owes v ch := howes
        rw [hfree] at howes'
        exact howes'.elim
    · show (tb.panicked || (tb.chans c).closed) = false
      rw [h.calm.1, hopen]
      rfl
  · exact h

/-- `Broadcast` offers its value to every channel in the map. -/
theorem Sound.broadcast {tb : Broadcaster} (h : tb.Sound) (hfree : tb.mutex = .free) {v : ℤ}
    {order : List ℕ} (horder : order.Perm tb.channels) : (tb.broadcast v order).Sound := by
  have hin : ∀ ch, ch ∈ order ↔ tb.Registered ch := fun ch => horder.mem_iff.trans mem_channels
  have hpending : (tb.broadcast v order).mutex.pending = order := Mutex.pending_next v order
  have hnone : ∀ w ch, ¬tb.mutex.Owes w ch := by
    intro w ch howes
    rw [hfree] at howes
    exact howes
  have hchan : ∀ ch, ((tb.broadcast v order).chans ch).buffer = (tb.chans ch).buffer ∧
      ((tb.broadcast v order).chans ch).closed = (tb.chans ch).closed ∧
      ((tb.broadcast v order).chans ch).delivered = (tb.chans ch).delivered ∧
      ((tb.broadcast v order).chans ch).offered =
        (tb.chans ch).offered ++ (if ch ∈ order then [v] else []) := by
    intro ch
    simp only [Broadcaster.broadcast]
    split
    · exact ⟨rfl, rfl, rfl, rfl⟩
    · exact ⟨rfl, rfl, rfl, (List.append_nil _).symm⟩
  refine ⟨?_, h.distinct, ?_, ?_, ?_, h.calm⟩
  · intro ch hch
    obtain ⟨hlt, hopen⟩ := h.opened ch hch
    exact ⟨hlt, (hchan ch).2.1.trans hopen⟩
  · rw [hpending]
    exact ⟨horder.nodup_iff.mpr h.nodup_channels, fun ch hch => (hin ch).mp hch⟩
  · intro w ch rest hm
    cases order <;> exact Mutex.noConfusion hm
  · intro ch
    obtain ⟨hbuffer, -, hdelivered, hoffered⟩ := hchan ch
    refine ⟨?_, ?_, fun hreg hpend => ?_, fun w howes => ?_⟩
    · rw [hbuffer]
      exact (h.chans ch).oneSlot
    · rw [Chan.Ordered, hbuffer, hdelivered, hoffered]
      exact (h.chans ch).ordered.trans (List.sublist_append_left _ _)
    · rw [hpending] at hpend
      exact absurd ((hin ch).mpr hreg) hpend
    · obtain ⟨rfl, hmem⟩ := Mutex.owes_next.mp howes
      refine ⟨(tb.chans ch).offered, ?_, ?_⟩
      · rw [hoffered, if_pos hmem]
      · rw [hbuffer, hdelivered]
        exact (h.chans ch).ordered

/-- One channel changes, and the running `Broadcast` may go on from it. -/
theorem Sound.setChan {tb : Broadcaster} (h : tb.Sound) {ch : ℕ} {c : Chan} {m : Mutex}
    (hclosed : c.closed = (tb.chans ch).closed) (hpending : m.pending <:+ tb.mutex.pending)
    (howes : ∀ v x, m.Owes v x → tb.mutex.Owes v x)
    (hothers : ∀ x, x ≠ ch → x ∉ m.pending → x ∉ tb.mutex.pending)
    (hflushed : ∀ v x rest, m = .pushing v x rest → (Function.update tb.chans ch c x).buffer = [])
    (hslot : c.buffer.length ≤ chanCapacity) (hordered : c.Ordered)
    (hfresh : tb.Registered ch → ch ∉ m.pending → c.Fresh) (hbehind : ∀ v, m.Owes v ch → c.Behind v) :
    Sound { tb.setChan ch c with mutex := m } := by
  have hold : ∀ x, x ≠ ch → (tb.setChan ch c).chans x = tb.chans x :=
    fun x hne => Function.update_of_ne hne _ _
  have hself : (tb.setChan ch c).chans ch = c := Function.update_self _ _ _
  refine ⟨?_, h.distinct, ?_, hflushed, ?_, h.calm⟩
  · intro x hx
    obtain ⟨hlt, hopen⟩ := h.opened x hx
    refine ⟨hlt, ?_⟩
    show ((tb.setChan ch c).chans x).closed = false
    by_cases hxc : x = ch
    · subst hxc
      rw [hself, hclosed]
      exact hopen
    · rw [hold x hxc]
      exact hopen
  · exact ⟨h.pending.1.sublist hpending.sublist, fun x hx => h.pending.2 x (hpending.subset hx)⟩
  · intro x
    by_cases hxc : x = ch
    · subst hxc
      refine ⟨?_, ?_, fun hreg hpend => ?_, fun v hv => ?_⟩
      · show ((tb.setChan x c).chans x).buffer.length ≤ _
        rw [hself]
        exact hslot
      · show ((tb.setChan x c).chans x).Ordered
        rw [hself]
        exact hordered
      · show ((tb.setChan x c).chans x).Fresh
        rw [hself]
        exact hfresh hreg hpend
      · show ((tb.setChan x c).chans x).Behind v
        rw [hself]
        exact hbehind v hv
    · refine ⟨?_, ?_, fun hreg hpend => ?_, fun v hv => ?_⟩
      · show ((tb.setChan ch c).chans x).buffer.length ≤ _
        rw [hold x hxc]
        exact (h.chans x).oneSlot
      · show ((tb.setChan ch c).chans x).Ordered
        rw [hold x hxc]
        exact (h.chans x).ordered
      · show ((tb.setChan ch c).chans x).Fresh
        rw [hold x hxc]
        exact (h.chans x).fresh hreg (hothers x hxc hpend)
      · show ((tb.setChan ch c).chans x).Behind v
        rw [hold x hxc]
        exact (h.chans x).behind v (howes v x hv)

/-- A receive keeps the line of values. -/
theorem Sound.receive {tb : Broadcaster} (h : tb.Sound) {ch : ℕ} {v : ℤ} {buffer : List ℤ}
    (hbuffer : (tb.chans ch).buffer = v :: buffer) :
    (tb.setChan ch ((tb.chans ch).take v buffer)).Sound := by
  have hline := Chan.take_line hbuffer
  have hok := h.chans ch
  have hset : Sound { tb.setChan ch ((tb.chans ch).take v buffer) with mutex := tb.mutex } := by
    refine h.setChan rfl (List.suffix_refl _) (fun _ _ hv => hv) (fun _ _ hx => hx) ?_ ?_ ?_ ?_ ?_
    · intro w x rest hm
      have hempty := h.flushed w x rest hm
      by_cases hx : x = ch
      · rw [hx, hbuffer] at hempty
        exact nomatch hempty
      · rw [Function.update_of_ne hx]
        exact hempty
    · have hlen := hok.oneSlot
      rw [hbuffer, List.length_cons] at hlen
      exact le_trans (Nat.le_succ _) hlen
    · rw [Chan.Ordered, hline]
      exact hok.ordered
    · intro hreg hpend
      rw [Chan.Fresh, hline]
      exact hok.fresh hreg hpend
    · intro w hw
      obtain ⟨old, hoffered, hsub⟩ := hok.behind w hw
      refine ⟨old, hoffered, ?_⟩
      rw [hline]
      exact hsub
  exact hset

/-! ### A running Broadcast -/

/-- An upper bound for the steps a running `Broadcast` still has to make. -/
def work (tb : Broadcaster) : ℕ :=
  match tb.mutex with
  | .free => 0
  | .flushing _ ch rest => 3 * rest.length + 2 + (tb.chans ch).buffer.length
  | .pushing _ _ rest => 3 * rest.length + 1

/-- The flush loop discards a waiting value. -/
theorem Sound.turn_discard {tb : Broadcaster} (h : tb.Sound) {v : ℤ} {ch : ℕ} {rest : List ℕ}
    (hm : tb.mutex = .flushing v ch rest) {x : ℤ} {buffer : List ℤ}
    (hbuffer : (tb.chans ch).buffer = x :: buffer) :
    ∃ tb', tb.step .turn = some tb' ∧ tb'.Sound ∧ tb'.work < tb.work := by
  have howed : tb.mutex.Owes v ch := by
    rw [hm]
    exact ⟨rfl, List.mem_cons_self⟩
  have hset : Sound { tb.setChan ch { tb.chans ch with buffer := buffer } with
      mutex := tb.mutex } := by
    refine h.setChan rfl (List.suffix_refl _) (fun _ _ hw => hw) (fun _ _ hx => hx) ?_ ?_ ?_ ?_ ?_
    · intro w y rest' hpush
      exact Mutex.noConfusion (hm.symm.trans hpush)
    · have hlen := (h.chans ch).oneSlot
      rw [hbuffer, List.length_cons] at hlen
      exact le_trans (Nat.le_succ _) hlen
    · exact (((h.chans ch).behind v howed).flush hbuffer).ordered
    · intro _ hpend
      rw [hm] at hpend
      exact absurd List.mem_cons_self hpend
    · intro w hw
      exact ((h.chans ch).behind w hw).flush hbuffer
  refine ⟨tb.setChan ch { tb.chans ch with buffer := buffer },
    by simp only [step, hm, hbuffer], hset, ?_⟩
  simp only [work, hm, Broadcaster.setChan, Function.update_self, hbuffer, List.length_cons]
  omega

/-- The flush loop ends on the empty channel. -/
theorem Sound.turn_flushed {tb : Broadcaster} (h : tb.Sound) {v : ℤ} {ch : ℕ} {rest : List ℕ}
    (hm : tb.mutex = .flushing v ch rest) (hbuffer : (tb.chans ch).buffer = []) :
    ∃ tb', tb.step .turn = some tb' ∧ tb'.Sound ∧ tb'.work < tb.work := by
  have hreg : tb.Registered ch := h.pending.2 ch (by rw [hm]; exact List.mem_cons_self)
  have hopen := (h.opened ch hreg).2
  have howed : tb.mutex.Owes v ch := by
    rw [hm]
    exact ⟨rfl, List.mem_cons_self⟩
  have hset : Sound { tb.setChan ch (tb.chans ch) with mutex := .pushing v ch rest } := by
    refine h.setChan rfl ?_ ?_ ?_ ?_ (h.chans ch).oneSlot (h.chans ch).ordered ?_ ?_
    · rw [hm]
      exact List.suffix_refl _
    · intro w x hw
      rw [hm]
      exact hw
    · intro x _ hx
      rw [hm]
      exact hx
    · intro w x rest' hpush
      obtain ⟨-, rfl, -⟩ := Mutex.pushing.inj hpush
      rw [Function.update_self]
      exact hbuffer
    · intro _ hpend
      exact absurd List.mem_cons_self hpend
    · intro w hw
      obtain ⟨rfl, -⟩ := hw
      exact (h.chans ch).behind _ howed
  have hsame : tb.setChan ch (tb.chans ch) = tb := by
    simp [Broadcaster.setChan]
  rw [hsame] at hset
  refine ⟨_, by simp only [step, hm, hbuffer, hopen]; rfl, hset, ?_⟩
  show work { tb with mutex := .pushing v ch rest } < _
  simp only [work, hm]
  omega

/-- The value is pushed onto the open and empty channel. -/
theorem Sound.turn_push {tb : Broadcaster} (h : tb.Sound) {v : ℤ} {ch : ℕ} {rest : List ℕ}
    (hm : tb.mutex = .pushing v ch rest) :
    ∃ tb', tb.step .turn = some tb' ∧ tb'.Sound ∧ tb'.work < tb.work := by
  have hreg : tb.Registered ch := h.pending.2 ch (by rw [hm]; exact List.mem_cons_self)
  have hopen := (h.opened ch hreg).2
  have hempty := h.flushed v ch rest hm
  have howed : tb.mutex.Owes v ch := by
    rw [hm]
    exact ⟨rfl, List.mem_cons_self⟩
  have hnodup := h.pending.1
  rw [hm] at hnodup
  obtain ⟨hnotin, -⟩ := List.nodup_cons.mp hnodup
  obtain ⟨hordered, hfresh⟩ := ((h.chans ch).behind v howed).push hempty
  have hset : Sound { tb.setChan ch
      { tb.chans ch with buffer := (tb.chans ch).buffer ++ [v] } with mutex := .next v rest } := by
    refine h.setChan rfl ?_ ?_ ?_ ?_ ?_ hordered (fun _ _ => hfresh) ?_
    · rw [hm, Mutex.pending_next]
      exact List.suffix_cons _ _
    · intro w x hw
      obtain ⟨rfl, hx⟩ := Mutex.owes_next.mp hw
      rw [hm]
      exact ⟨rfl, List.mem_cons_of_mem _ hx⟩
    · intro x hx hpend
      rw [Mutex.pending_next] at hpend
      rw [hm]
      exact List.not_mem_cons_of_ne_of_not_mem hx hpend
    · intro w x rest' hpush
      cases rest <;> exact Mutex.noConfusion hpush
    · show ((tb.chans ch).buffer ++ [v]).length ≤ chanCapacity
      rw [hempty]
      exact le_refl 1
    · intro w hw
      exact absurd (Mutex.owes_next.mp hw).2 hnotin
  have hroom : (tb.chans ch).buffer.length < chanCapacity := by
    rw [hempty]
    exact Nat.one_pos
  refine ⟨_, by simp only [step, hm, hopen, Bool.false_eq_true, if_false, if_pos hroom], hset, ?_⟩
  -- the next channel, if there is one, has at most one value to flush
  cases rest with
  | nil =>
      show 0 < work tb
      simp [work, hm]
  | cons c rest =>
      have hne : c ≠ ch := fun heq => hnotin (heq ▸ List.mem_cons_self)
      have hslot := (h.chans c).oneSlot
      show work { tb.setChan ch
        { tb.chans ch with buffer := (tb.chans ch).buffer ++ [v] } with
          mutex := .flushing v c rest } < work tb
      simp only [work, hm, Broadcaster.setChan, Function.update_of_ne hne, List.length_cons,
        chanCapacity] at hslot ⊢
      omega

/-- **A step of the running `Broadcast`**: it discards a waiting value, leaves the flush loop on the
empty channel, or pushes onto an open and empty channel. -/
theorem Sound.turn {tb : Broadcaster} (h : tb.Sound) (hbusy : tb.mutex ≠ .free) :
    ∃ tb', tb.step .turn = some tb' ∧ tb'.Sound ∧ tb'.work < tb.work := by
  cases hm : tb.mutex with
  | free => exact absurd hm hbusy
  | flushing v ch rest =>
      cases hbuffer : (tb.chans ch).buffer with
      | cons x buffer => exact h.turn_discard hm hbuffer
      | nil => exact h.turn_flushed hm hbuffer
  | pushing v ch rest => exact h.turn_push hm

/-! ### Runs -/

/-- **Every step keeps the invariant.** -/
theorem Sound.step {tb tb' : Broadcaster} {e : BroadcasterEvent} (h : tb.Sound)
    (hs : tb.step e = some tb') : tb'.Sound := by
  cases e with
  | subscribe workerID =>
      simp only [Broadcaster.step] at hs
      split at hs
      · rename_i hfree
        obtain rfl := Option.some.inj hs
        exact h.subscribe hfree workerID
      · simp at hs
  | unsubscribe workerID =>
      simp only [Broadcaster.step] at hs
      split at hs
      · rename_i hfree
        obtain rfl := Option.some.inj hs
        exact h.unsubscribe hfree workerID
      · simp at hs
  | broadcast v order =>
      simp only [Broadcaster.step] at hs
      split at hs
      · rename_i hfree
        obtain ⟨horder, hs⟩ := Option.ite_none_right_eq_some.mp hs
        obtain rfl := Option.some.inj hs
        exact h.broadcast hfree horder
      · simp at hs
  | turn =>
      have hbusy : tb.mutex ≠ .free := by
        intro hfree
        simp only [Broadcaster.step, hfree] at hs
        simp at hs
      obtain ⟨tb₁, hturn, hsound, -⟩ := h.turn hbusy
      obtain rfl : tb₁ = tb' := Option.some.inj (hturn.symm.trans hs)
      exact hsound
  | receive ch =>
      simp only [Broadcaster.step] at hs
      split at hs
      · rename_i v buffer hbuffer
        obtain rfl := Option.some.inj hs
        exact h.receive hbuffer
      · obtain ⟨-, hs⟩ := Option.ite_none_right_eq_some.mp hs
        obtain rfl := Option.some.inj hs
        exact h

theorem sound {guard : Broadcaster → BroadcasterEvent → Prop} {tb : Broadcaster}
    (hr : Reaches step guard .new tb) : tb.Sound :=
  hr.invariant Sound sound_new fun _ _ _ h _ hs => h.step hs

/-- While a `Broadcast` runs, nobody else adds to its work. -/
theorem work_step {tb tb' : Broadcaster} {e : BroadcasterEvent} (h : tb.Sound)
    (hbusy : tb.mutex ≠ .free) (hs : tb.step e = some tb') : tb'.work ≤ tb.work := by
  cases e with
  | subscribe workerID => simp [Broadcaster.step] at hs
  | unsubscribe workerID => simp [Broadcaster.step] at hs
  | broadcast v order => simp [Broadcaster.step] at hs
  | turn =>
      obtain ⟨tb₁, hturn, -, hlt⟩ := h.turn hbusy
      obtain rfl : tb₁ = tb' := Option.some.inj (hturn.symm.trans hs)
      exact le_of_lt hlt
  | receive ch =>
      simp only [Broadcaster.step] at hs
      split at hs
      · rename_i v buffer hbuffer
        obtain rfl := Option.some.inj hs
        cases hm : tb.mutex with
        | free => exact absurd hm hbusy
        | flushing w c rest =>
            by_cases hc : c = ch
            · subst hc
              simp only [work, Broadcaster.setChan, hm, Function.update_self, hbuffer,
                List.length_cons]
              omega
            · simp only [work, Broadcaster.setChan, hm, Function.update_of_ne hc]
              exact le_refl _
        | pushing w c rest =>
            simp only [work, Broadcaster.setChan, hm]
            exact le_refl _
      · obtain ⟨-, hs⟩ := Option.ite_none_right_eq_some.mp hs
        obtain rfl := Option.some.inj hs
        exact le_refl _

theorem offered_update {chans : ℕ → Chan} {d : ℕ} {c : Chan} (hc : c.offered = (chans d).offered)
    (ch : ℕ) : (Function.update chans d c ch).offered = (chans ch).offered := by
  by_cases hd : ch = d
  · rw [hd, Function.update_self, hc]
  · rw [Function.update_of_ne hd]

/-- **Only a `Broadcast` offers anything**, and it offers its value to every registered channel. -/
theorem Sound.offered_step {tb tb' : Broadcaster} {e : BroadcasterEvent} (h : tb.Sound)
    (hs : tb.step e = some tb') {ch : ℕ} (hch : tb.Registered ch) :
    (tb'.chans ch).offered = (tb.chans ch).offered ++ e.values := by
  have hnothing : (tb.chans ch).offered = (tb.chans ch).offered ++ [] := (List.append_nil _).symm
  cases e with
  | subscribe workerID =>
      simp only [Broadcaster.step] at hs
      split at hs
      · obtain rfl := Option.some.inj hs
        have hold : ch ≠ tb.made := Nat.ne_of_lt (h.opened ch hch).1
        refine Eq.trans ?_ hnothing
        exact congrArg Chan.offered (Function.update_of_ne hold _ _)
      · cases hs
  | unsubscribe workerID =>
      simp only [Broadcaster.step] at hs
      split at hs
      · obtain rfl := Option.some.inj hs
        unfold Broadcaster.unsubscribe
        split
        · rename_i d _
          refine Eq.trans ?_ hnothing
          exact offered_update (by rfl) ch
        · exact hnothing
      · cases hs
  | broadcast v order =>
      simp only [Broadcaster.step] at hs
      split at hs
      · obtain ⟨horder, hs⟩ := Option.ite_none_right_eq_some.mp hs
        obtain rfl := Option.some.inj hs
        have hin : ch ∈ order := horder.mem_iff.mpr (mem_channels.mpr hch)
        simp only [Broadcaster.broadcast, if_pos hin]
        rfl
      · cases hs
  | turn =>
      simp only [Broadcaster.step] at hs
      split at hs
      · cases hs
      · split at hs
        · obtain rfl := Option.some.inj hs
          refine Eq.trans ?_ hnothing
          exact offered_update (by rfl) ch
        · obtain rfl := Option.some.inj hs
          split <;> exact hnothing
      · split at hs
        · obtain rfl := Option.some.inj hs
          exact hnothing
        · split at hs
          · obtain rfl := Option.some.inj hs
            refine Eq.trans ?_ hnothing
            exact offered_update (by rfl) ch
          · obtain rfl := Option.some.inj hs
            exact hnothing
  | receive d =>
      simp only [Broadcaster.step] at hs
      split at hs
      · obtain rfl := Option.some.inj hs
        refine Eq.trans ?_ hnothing
        exact offered_update (by rfl) ch
      · obtain ⟨-, hs⟩ := Option.ite_none_right_eq_some.mp hs
        obtain rfl := Option.some.inj hs
        exact hnothing

/-- A channel holds the newest value, or has delivered it last. -/
theorem newest_of_fresh {c : Chan} (hslot : c.buffer.length ≤ chanCapacity) (h : c.Fresh) :
    (c.buffer = [] ∧ c.delivered.getLast? = c.offered.getLast?) ∨
      ∃ v, c.buffer = [v] ∧ c.offered.getLast? = some v := by
  unfold Chan.Fresh at h
  match hbuffer : c.buffer with
  | [] =>
      rw [hbuffer, List.append_nil] at h
      exact .inl ⟨rfl, h⟩
  | [v] =>
      rw [hbuffer, List.getLast?_concat] at h
      exact .inr ⟨v, rfl, h.symm⟩
  | _ :: _ :: _ =>
      rw [hbuffer] at hslot
      simp [chanCapacity] at hslot

/-- **The one-slot broadcaster delivers the freshest value and never blocks or panics.**  In every
state that subscriptions, cancellations, broadcasts and receives reach:

* every channel in the map is open and holds at most one update;
* no send has met a closed channel, no channel was closed twice, and no push took `default`;
* a running `Broadcast` can take its next step, which lessens its work, and no other step adds to it,
  so its flush loops end;
* a `Broadcast` offers its value to every registered channel, and nothing else is offered;
* what a channel has delivered is, in order, a part of what it was offered;
* a registered channel that the running `Broadcast`, if any, has served holds the newest value of
  these, or has delivered it last. -/
theorem delivers_freshest {tb : Broadcaster} (hr : Reachable step .new tb) :
    (∀ ch, tb.Registered ch →
        (tb.chans ch).closed = false ∧ (tb.chans ch).buffer.length ≤ 1) ∧
      (tb.panicked = false ∧ tb.skipped = false) ∧
      (tb.mutex ≠ .free → (∃ tb', tb.step .turn = some tb' ∧ tb'.work < tb.work) ∧
        ∀ e tb', tb.step e = some tb' → tb'.work ≤ tb.work) ∧
      (∀ e tb', tb.step e = some tb' → ∀ ch, tb.Registered ch →
        (tb'.chans ch).offered = (tb.chans ch).offered ++ e.values) ∧
      (∀ ch, (tb.chans ch).delivered.Sublist (tb.chans ch).offered) ∧
      ∀ ch, tb.Registered ch → ch ∉ tb.mutex.pending →
        ((tb.chans ch).buffer = [] ∧
            (tb.chans ch).delivered.getLast? = (tb.chans ch).offered.getLast?) ∨
          ∃ v, (tb.chans ch).buffer = [v] ∧ (tb.chans ch).offered.getLast? = some v := by
  have h := sound hr
  refine ⟨fun ch hch => ⟨(h.opened ch hch).2, (h.chans ch).oneSlot⟩, h.calm, fun hbusy => ⟨?_, ?_⟩,
    fun e tb' hs ch hch => h.offered_step hs hch, fun ch => ?_, fun ch hreg hpend => ?_⟩
  · obtain ⟨tb', hturn, -, hlt⟩ := h.turn hbusy
    exact ⟨tb', hturn, hlt⟩
  · exact fun e tb' hs => work_step h hbusy hs
  · exact (List.sublist_append_left _ _).trans (h.chans ch).ordered
  · exact newest_of_fresh (h.chans ch).oneSlot ((h.chans ch).fresh hreg hpend)

/-- Two subscribers and two broadcasts; the first channel is read between the flush and the push. -/
def twoBroadcasts : List BroadcasterEvent :=
  [.subscribe "a", .subscribe "b", .broadcast 80 [0, 1], .turn, .turn, .turn, .turn, .receive 0,
    .broadcast 100 [1, 0], .turn, .turn, .turn, .turn, .turn, .receive 1]

theorem delivers_freshest_twoBroadcasts :
    ∃ tb, Reachable step .new tb ∧ (tb.chans 1).delivered = [100] ∧
      (tb.chans 0).delivered.Sublist (tb.chans 0).offered ∧ tb.panicked = false := by
  have hrun : (exec step .new twoBroadcasts).map (fun tb => (tb.chans 1).delivered) = some [100] := by
    decide +kernel
  obtain ⟨tb, hs, hdelivered⟩ := Option.map_eq_some_iff.mp hrun
  have hr : Reachable step .new tb := Reaches.of_exec (fun _ _ _ => trivial) hs
  have hall := delivers_freshest hr
  exact ⟨tb, hr, hdelivered, hall.2.2.2.2.1 0, hall.2.1.1⟩

end Broadcaster

end HydraSAT.Master
