import HydraSAT.CubeGenCli.Propagator
import HydraSAT.Lib.Buffer

/-!
# The trail of cube_gen as a vector

`m_trail` is never reserved, and `getTrail` hands out its `data()`.  The operations of the propagator
once more, on the vector; `g` says how a full vector grows.

* `Buffered`: the propagator and the vector that holds its trail;
* `Buffered.propagate_forget`: on the vector the operations compute what they compute on the list;
* `Buffered.propagate_pushes`: to the vector, propagation is a sequence of `push_back`s.
-/

namespace HydraSAT.CubeGenCli

open HydraSAT.Lib

structure Buffered where
  propagator : Propagator
  m_trail : Buffer ℤ
  holds : m_trail.elems = propagator.trail

namespace Buffered

/-! ### The code -/

def new (nbVar : ℕ) (clauses : List Clause) : Buffered where
  propagator := .new nbVar clauses
  m_trail := .empty
  holds := rfl

/-- `m_trail.clear()` keeps the capacity. -/
def restart (B : Buffered) : Buffered where
  propagator := B.propagator.restart
  m_trail := B.m_trail.truncate 0
  holds := rfl

def uncheckedEnqueue (g : Growth) (B : Buffered) (l : ℤ) : Buffered where
  propagator := B.propagator.uncheckedEnqueue l
  m_trail := B.m_trail.pushBack g l
  holds := by rw [Buffer.elems_pushBack, B.holds]; rfl

/-- `pop_back` keeps the capacity. -/
def cancelUntilPos (B : Buffered) (pos : ℕ) : Buffered where
  propagator := B.propagator.cancelUntilPos pos
  m_trail := B.m_trail.truncate pos
  holds := by rw [Buffer.elems_truncate, B.holds]; rfl

def getTrail (B : Buffered) : ℕ := B.m_trail.data

def getTrailSize (B : Buffered) : ℕ := B.m_trail.elems.length

/-- `std::vector<Lit>(trail, trail + getTrailSize())`. -/
def copy (B : Buffered) (trail : ℕ) : Option Cube := B.m_trail.read trail B.getTrailSize

/-- The loop of `propagateLit` over a watch list, with the entries kept so far. -/
def scanWatches (g : Growth) : Buffered → List ℕ → List ℕ → Bool × List ℕ × Buffered
  | B, kept, [] => (true, kept, B)
  | B, kept, ci :: rest =>
      match B.propagator.scanClause (B.propagator.clauses.getD ci []) 0 0 0 with
      | none => scanWatches g B (kept ++ [ci]) rest
      | some (0, _, _) => (false, kept ++ ci :: rest, B)
      | some (1, unit, _) =>
          scanWatches g (if B.propagator.value unit = 2 then B.uncheckedEnqueue g unit else B)
            (kept ++ [ci]) rest
      | some (_ + 2, _, newW) =>
          scanWatches g
            { B with
              propagator :=
                { B.propagator with watches := watch B.propagator.watches newW ci } } kept rest

def propagateLit (g : Growth) (B : Buffered) (p : ℤ) : Bool × Buffered :=
  match scanWatches g B [] (B.propagator.watches.getD (litIdx (-p)) []) with
  | (ok, ws, B) =>
      (ok, { B with
        propagator := { B.propagator with watches := B.propagator.watches.set (litIdx (-p)) ws } })

/-- The loop of `propagate`; the first argument bounds the number of iterations. -/
def propagateLoop (g : Growth) : ℕ → Buffered → Bool × Buffered
  | 0, B => (true, B)
  | fuel + 1, B =>
      match B.m_trail.elems[B.propagator.qhead]? with
      | none => (true, B)
      | some p =>
          match propagateLit g
            { B with propagator := { B.propagator with qhead := B.propagator.qhead + 1 } } p with
          | (true, B) => propagateLoop g fuel B
          | (false, B) => (false, { B with propagator := { B.propagator with unsat := true } })

def propagate (g : Growth) (B : Buffered) : Bool × Buffered :=
  propagateLoop g (B.getTrailSize + B.propagator.assign.length) B

/-! ### The same propagator -/

variable {g : Growth} {B B' B'' : Buffered}

theorem scanWatches_forget (g : Growth) (B : Buffered) (kept rest : List ℕ) :
    Propagator.scanWatches B.propagator kept rest =
      ((scanWatches g B kept rest).1, (scanWatches g B kept rest).2.1,
        (scanWatches g B kept rest).2.2.propagator) := by
  induction rest generalizing B kept with
  | nil => rfl
  | cons ci rest ih =>
      rw [Propagator.scanWatches, scanWatches]
      rcases B.propagator.scanClause (B.propagator.clauses.getD ci []) 0 0 0 with
        _ | ⟨_ | _ | free, unit, newW⟩
      · exact ih B (kept ++ [ci])
      · rfl
      · by_cases hopen : B.propagator.value unit = 2
        · simp only [if_pos hopen]
          exact ih (B.uncheckedEnqueue g unit) (kept ++ [ci])
        · simp only [if_neg hopen]
          exact ih B (kept ++ [ci])
      · exact ih { B with
          propagator := { B.propagator with watches := watch B.propagator.watches newW ci } } kept

theorem propagateLit_forget (g : Growth) (B : Buffered) (p : ℤ) :
    Propagator.propagateLit B.propagator p =
      ((propagateLit g B p).1, (propagateLit g B p).2.propagator) := by
  rw [Propagator.propagateLit, scanWatches_forget g B]
  rfl

theorem propagateLoop_forget (g : Growth) (fuel : ℕ) (B : Buffered) :
    Propagator.propagateLoop fuel B.propagator =
      ((propagateLoop g fuel B).1, (propagateLoop g fuel B).2.propagator) := by
  induction fuel generalizing B with
  | zero => rfl
  | succ fuel ih =>
      rw [Propagator.propagateLoop, propagateLoop, B.holds]
      rcases B.propagator.trail[B.propagator.qhead]? with _ | p
      · rfl
      · have hlit := propagateLit_forget g
          { B with propagator := { B.propagator with qhead := B.propagator.qhead + 1 } } p
        rcases hout : propagateLit g
          { B with propagator := { B.propagator with qhead := B.propagator.qhead + 1 } } p with
          ⟨_ | _, B'⟩
        · simp only [hlit, hout]
        · simp only [hlit, hout]
          exact ih B'

/-- **On the vector, `propagate` computes what it computes on the list.** -/
theorem propagate_forget (g : Growth) (B : Buffered) :
    B.propagator.propagate = ((B.propagate g).1, (B.propagate g).2.propagator) := by
  rw [Propagator.propagate, propagateLoop_forget g, ← B.holds]
  rfl

/-! ### Only pushes -/

/-- The vector of `B'` is that of `B` after some `push_back`s. -/
def Pushes (g : Growth) (B B' : Buffered) : Prop :=
  ∃ more, B'.m_trail = B.m_trail.pushAll g more

theorem Pushes.refl (g : Growth) (B : Buffered) : Pushes g B B := ⟨[], rfl⟩

theorem Pushes.trans (h : Pushes g B B') (h' : Pushes g B' B'') : Pushes g B B'' := by
  obtain ⟨more, hmore⟩ := h
  obtain ⟨more', hmore'⟩ := h'
  exact ⟨more ++ more', by rw [hmore', hmore, Buffer.pushAll_append]⟩

theorem enqueue_pushes (g : Growth) (B : Buffered) (l : ℤ) : Pushes g B (B.uncheckedEnqueue g l) :=
  ⟨[l], rfl⟩

theorem scanWatches_pushes (g : Growth) (B : Buffered) (kept rest : List ℕ) :
    Pushes g B (scanWatches g B kept rest).2.2 := by
  induction rest generalizing B kept with
  | nil => exact .refl g B
  | cons ci rest ih =>
      rw [scanWatches]
      split
      · exact ih B (kept ++ [ci])
      · exact .refl g B
      · split
        · exact (enqueue_pushes g B _).trans (ih _ (kept ++ [ci]))
        · exact ih B (kept ++ [ci])
      · exact Pushes.trans ⟨[], rfl⟩ (ih _ kept)

theorem propagateLit_pushes (g : Growth) (B : Buffered) (p : ℤ) :
    Pushes g B (propagateLit g B p).2 :=
  (scanWatches_pushes g B [] (B.propagator.watches.getD (litIdx (-p)) [])).trans ⟨[], rfl⟩

theorem propagateLoop_pushes (g : Growth) (fuel : ℕ) (B : Buffered) :
    Pushes g B (propagateLoop g fuel B).2 := by
  induction fuel generalizing B with
  | zero => exact .refl g B
  | succ fuel ih =>
      rw [propagateLoop]
      split
      · exact .refl g B
      · rename_i p _
        have hlit := propagateLit_pushes g
          { B with propagator := { B.propagator with qhead := B.propagator.qhead + 1 } } p
        have hfirst := Pushes.trans (B := B) ⟨[], rfl⟩ hlit
        split
        · rename_i B' hB'
          rw [hB'] at hfirst
          exact hfirst.trans (ih B')
        · rename_i B' hB'
          rw [hB'] at hfirst
          exact hfirst.trans ⟨[], rfl⟩

theorem propagate_pushes (g : Growth) (B : Buffered) : Pushes g B (B.propagate g).2 :=
  propagateLoop_pushes g _ B

end Buffered

end HydraSAT.CubeGenCli
