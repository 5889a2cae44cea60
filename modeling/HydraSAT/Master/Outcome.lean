import HydraSAT.Master.Completion
import HydraSAT.Master.ModelCount

/-!
# What the total says about the formula

Every cube stands for its models.  Splitting and counting move models around; none appears.

* `CubeFlow`: what a move does to the cubes that the server has and the handler answers for;
* `System.allCubes`: all these cubes come from the initial ones by splits;
* `System.weight_le`, `System.weight_eq`: a weight of cubes that splits do not raise is not raised in
  runs, and one that splits keep is kept;
* `System.totalCount_le_models`: as long as no reported count exceeds the models of its cube, the total
  and the models of the outstanding cubes stay below the model count, whatever else goes wrong;
* `System.returns_models`: with exact counts, quiet reads and room for the splits, `Solve` returns the
  model count.
-/

namespace HydraSAT.Master

open HydraSAT.Lib

variable {cfg : HeuristicConfig} {workers : WorkerTracker} {cnf : CNFData} {cubes : List Cube}
  {guard : System → Action → Prop} {s : System} {n : ℕ} {w : Cube → ℕ}

/-! ### The flow of cubes -/

/-- The cubes of the server, outstanding or counted. -/
def MasterServer.held (s : MasterServer) : List Cube :=
  s.taskManager.outstanding ++ s.history.counted.map fun e => e.2.1

theorem TaskManager.outstanding_enter {tm : TaskManager} {id : ℤ} (cube : Cube)
    (hfresh : id ∉ tm.checkbook) : (tm.enter id cube).outstanding = cube :: tm.outstanding := by
  show ((tm.checkbook.insert id ⟨cube, ""⟩).entries.map fun e => e.2.cube) = _
  rw [AList.entries_insert_of_notMem hfresh]
  rfl

theorem TaskManager.outstanding_deleteTask {tm : TaskManager} {id : ℤ} {entry : TaskEntry}
    (hl : tm.checkbook.lookup id = some entry) :
    tm.outstanding.Perm (entry.cube :: (tm.deleteTask id).outstanding) := by
  have hdel : (tm.deleteTask id).outstanding =
      (tm.checkbook.erase id).entries.map fun e => e.2.cube := by
    unfold TaskManager.deleteTask
    rw [hl]
    rfl
  rw [hdel]
  exact (perm_of_lookup hl).map fun e => e.2.cube

theorem TaskManager.outstanding_recordAssignment (tm : TaskManager) (id : ℤ) (hostname : String) :
    (tm.recordAssignment id hostname).outstanding.Perm tm.outstanding := by
  unfold TaskManager.recordAssignment
  split
  · rename_i e he
    exact ((perm_of_lookup he).map fun e => e.2.cube).symm
  · exact List.Perm.refl _

/-- `EnqueueCubes` moves cubes into the checkbook. -/
theorem enqueueStep_flow {tm tm' : TaskManager} {e e' : EnqueueCubes}
    (hfresh : ∀ x ∈ e.drawn, x ∉ tm.checkbook) (h : enqueueStep tm e = some (tm', e')) :
    (tm'.outstanding ++ e'.pending).Perm (tm.outstanding ++ e.pending) := by
  rcases enqueueStep_cases h with ⟨cube, rest, rfl, rfl, rfl⟩ | ⟨id, cube, rest, rfl, -, rfl, rfl⟩ |
    ⟨id, cube, rest, rfl, rfl, rfl⟩ | ⟨task, rest, rfl, -, rfl, rfl⟩
  · exact List.Perm.refl _
  · rw [TaskManager.outstanding_enter cube (hfresh id (by simp [EnqueueCubes.drawn]))]
    exact List.perm_middle.symm
  · exact List.Perm.refl _
  · exact List.Perm.refl _

/-- **What a move of a handler does to the cubes**: it keeps them, it replaces a cube by its children,
or it drops a cube whose count does not parse. -/
inductive CubeFlow (s : MasterServer) (h : Handler) (s' : MasterServer) (h' : Handler) : Prop
  | keeps : (s'.held ++ h'.charge).Perm (s.held ++ h.charge) → CubeFlow s h s' h'
  | splits (r cube entries) : h = .submitResult (.split r cube) →
      MapOrder s.taskManager.cnfData.clauses entries → s'.held = s.held →
      h'.charge = splitCubeSmart cube entries → CubeFlow s h s' h'
  | drops (r hostname cube) : h = .submitResult (.updateWorker r hostname cube) →
      r.timedOut = false → setString10 r.count = none → s'.held = s.held → h'.charge = [] →
      CubeFlow s h s' h'

/-- Steps that leave the counted cubes alone. -/
theorem held_perm {s s' : MasterServer} {c c' : List Cube}
    (hcounted : s'.history.counted = s.history.counted)
    (h : (s'.taskManager.outstanding ++ c').Perm (s.taskManager.outstanding ++ c)) :
    (s'.held ++ c').Perm (s.held ++ c) := by
  have hswap : ∀ xs ys zs : List Cube, (xs ++ ys ++ zs).Perm (xs ++ zs ++ ys) := by
    intro xs ys zs
    rw [List.append_assoc, List.append_assoc]
    exact List.perm_append_comm.append_left xs
  unfold MasterServer.held
  rw [hcounted]
  exact (hswap _ _ _).trans ((h.append_right _).trans (hswap _ _ _))

theorem MasterServer.held_addCount (s : MasterServer) (r : TaskResult) (cube : Cube) (val : ℤ) :
    ((s.addCount r cube val).held ++ []).Perm (s.held ++ [cube]) := by
  rw [List.append_nil]
  show (s.taskManager.outstanding ++ (s.history.counted ++ [(r.taskId, cube, val)]).map _).Perm _
  rw [List.map_append, ← List.append_assoc]
  exact List.Perm.refl _

theorem HandlerMove.flow {s s' : MasterServer} {h h' : Handler} (hm : HandlerMove s h s' h')
    (hfresh : ∀ x ∈ h.call.drawn, x ∉ s.taskManager.checkbook) : CubeFlow s h s' h' := by
  cases hm with
  | getTask hg =>
      cases hg with
      | record w task _ =>
          exact .keeps (held_perm rfl
            ((s.taskManager.outstanding_recordAssignment task.taskId w.hostname).append_right _))
      | _ => exact .keeps (List.Perm.refl _)
  | submitResult hm =>
      cases hm with
      | accept r entry _ hl =>
          refine .keeps (held_perm rfl ?_)
          show ((s.taskManager.deleteTask r.taskId).outstanding ++ [entry.cube]).Perm
            (s.taskManager.outstanding ++ [])
          rw [List.append_nil]
          exact (List.perm_append_singleton _ _).trans
            (TaskManager.outstanding_deleteTask hl).symm
      | unparsed r hostname cube hto hval => exact .drops r hostname cube rfl hto hval rfl rfl
      | split r cube entries horder => exact .splits r cube entries rfl horder rfl rfl
      | enqueue r cube newCubes e tm' e' he =>
          exact .keeps (held_perm rfl (enqueueStep_flow hfresh he))
      | addMeasured r cube val _ => exact .keeps (s.held_addCount r cube val)
      | addUnmeasured r cube val _ => exact .keeps (s.held_addCount r cube val)
      | _ => exact .keeps (List.Perm.refl _)

theorem SolveMove.flow {s s' : MasterServer} {p p' : Solve} (hm : SolveMove s p s' p')
    (hfresh : ∀ x ∈ p.call.drawn, x ∉ s.taskManager.checkbook) :
    (s'.held ++ p'.charge).Perm (s.held ++ p.charge) := by
  cases hm with
  | load e tm' e' he => exact held_perm rfl (enqueueStep_flow hfresh he)
  | _ => exact List.Perm.refl _

/-! ### Where cubes come from -/

/-- All cubes of the server, of `Solve` and of the handlers satisfy `P`. -/
structure System.AllCubes (P : Cube → Prop) (s : System) : Prop where
  server : ∀ c ∈ s.server.held, P c
  solve : ∀ c ∈ s.solve.charge, P c
  handlers : ∀ h ∈ s.handlers, ∀ c ∈ h.charge, P c

theorem CubeFlow.all {P : Cube → Prop} {s s' : MasterServer} {h h' : Handler}
    (hflow : CubeFlow s h s' h') (hserver : ∀ c ∈ s.held, P c) (hcharge : ∀ c ∈ h.charge, P c)
    (hsplit : ∀ r cube entries, h = .submitResult (.split r cube) → P cube →
      MapOrder s.taskManager.cnfData.clauses entries → ∀ child ∈ splitCubeSmart cube entries, P child) :
    (∀ c ∈ s'.held, P c) ∧ ∀ c ∈ h'.charge, P c := by
  cases hflow with
  | keeps hperm =>
      have hall : ∀ c ∈ s'.held ++ h'.charge, P c := fun c hc =>
        (List.mem_append.mp (hperm.mem_iff.mp hc)).elim (hserver c) (hcharge c)
      exact ⟨fun c hc => hall c (List.mem_append_left _ hc),
        fun c hc => hall c (List.mem_append_right _ hc)⟩
  | splits r cube entries hh horder hsame hchildren =>
      subst hh
      rw [hsame, hchildren]
      exact ⟨hserver, hsplit r cube entries rfl (hcharge cube List.mem_cons_self) horder⟩
  | drops r hostname cube hh _ _ hsame hnone =>
      rw [hsame, hnone]
      exact ⟨hserver, fun _ hc => absurd hc List.not_mem_nil⟩

/-- **A step keeps what all cubes have**, if the splits keep it. -/
theorem System.AllCubes.step {P : Cube → Prop} {s s' : System} {act : Action} (hall : s.AllCubes P)
    (hs : s.step act = some s') (hle : ∀ x, s.listed x ≤ s.server.taskManager.born x)
    (hsplit : ∀ i c r cube entries, act = .handler i c →
      s.handlers[i]? = some (.submitResult (.split r cube)) → P cube →
      MapOrder s.server.taskManager.cnfData.clauses entries →
      ∀ child ∈ splitCubeSmart cube entries, P child) : s'.AllCubes P := by
  have hfresh := fun x => @System.fresh x s (hle x)
  cases System.move_of_step hs with
  | solve hp =>
      have hperm := hp.flow fun x hx => hfresh x (.inl hx)
      have hmem : ∀ c, c ∈ s.server.held ++ s.solve.charge → P c := fun c hc =>
        (List.mem_append.mp hc).elim (hall.server c) (hall.solve c)
      exact ⟨fun c hc => hmem c (hperm.mem_iff.mp (List.mem_append_left _ hc)),
        fun c hc => hmem c (hperm.mem_iff.mp (List.mem_append_right _ hc)), hall.handlers⟩
  | getTask w =>
      exact ⟨hall.server, hall.solve, forall_arrive hall.handlers
        fun _ hc => absurd hc List.not_mem_nil⟩
  | submitResult r =>
      exact ⟨hall.server, hall.solve, forall_arrive hall.handlers
        fun _ hc => absurd hc List.not_mem_nil⟩
  | @handler pre h post server h' c heq hm =>
      have hmem : h ∈ s.handlers := by simp [heq]
      have hflow := hm.flow fun x hx => hfresh x (.inr ⟨h, hmem, hx⟩)
      obtain ⟨hserver, hself⟩ := hflow.all hall.server (hall.handlers h hmem)
        fun r cube entries hh => hsplit pre.length c r cube entries rfl (by simp [heq, hh])
      have hothers := hall.handlers
      rw [heq] at hothers
      exact ⟨hserver, hall.solve, forall_exchange hothers hself⟩

theorem System.allCubes_init {P : Cube → Prop} (hstart : ∀ c ∈ cubes, P c) :
    (System.init cfg workers cnf cubes).AllCubes P :=
  ⟨fun _ hc => absurd hc List.not_mem_nil, hstart, fun _ hh => absurd hh List.not_mem_nil⟩

/-- **What the initial cubes have and the splits of the run keep, all cubes have.** -/
theorem System.allCubes {P : Cube → Prop}
    (hr : Reaches System.step guard (.init cfg workers cnf cubes) s) (hstart : ∀ c ∈ cubes, P c)
    (hsplit : ∀ s i c r cube entries, guard s (.handler i c) →
      s.handlers[i]? = some (.submitResult (.split r cube)) → s.server.taskManager.cnfData = cnf →
      P cube → MapOrder cnf.clauses entries → ∀ child ∈ splitCubeSmart cube entries, P child) :
    s.AllCubes P := by
  refine hr.invariant' (System.AllCubes P) (System.allCubes_init hstart) ?_
  intro s act s' hr hall hg hs
  have hcnf := System.cnfData_eq hr
  refine hall.step hs (System.listed_le hr.reachable) ?_
  rintro i c r cube entries rfl hi hcube horder
  exact hsplit s i c r cube entries hg hi hcnf hcube (by rwa [hcnf] at horder)

/-! ### Weights -/

/-- The sum of the weights of some cubes. -/
def weigh (w : Cube → ℕ) (cubes : List Cube) : ℕ := (cubes.map w).sum

theorem weigh_append (xs ys : List Cube) : weigh w (xs ++ ys) = weigh w xs + weigh w ys := by
  rw [weigh, List.map_append, List.sum_append]
  rfl

theorem weigh_singleton (c : Cube) : weigh w [c] = w c := Nat.add_zero _

theorem weigh_perm {xs ys : List Cube} (h : xs.Perm ys) : weigh w xs = weigh w ys := (h.map w).sum_eq

/-- What the cubes of the server, of `Solve` and of the handlers weigh together. -/
abbrev System.weight (w : Cube → ℕ) (s : System) : ℕ :=
  s.total (fun m => weigh w m.held) (fun p => weigh w p.charge) (fun h => weigh w h.charge)

theorem SolveMove.weight {s s' : MasterServer} {p p' : Solve} (hm : SolveMove s p s' p')
    (hfresh : ∀ x ∈ p.call.drawn, x ∉ s.taskManager.checkbook) :
    weigh w s'.held + weigh w p'.charge = weigh w s.held + weigh w p.charge := by
  rw [← weigh_append, ← weigh_append, weigh_perm (hm.flow hfresh)]

/-- No move raises the weight if no split does. -/
theorem CubeFlow.weight_le {s s' : MasterServer} {h h' : Handler} (hflow : CubeFlow s h s' h')
    (hsplit : ∀ r cube entries, h = .submitResult (.split r cube) →
      MapOrder s.taskManager.cnfData.clauses entries → weigh w (splitCubeSmart cube entries) ≤ w cube) :
    weigh w s'.held + weigh w h'.charge ≤ weigh w s.held + weigh w h.charge := by
  cases hflow with
  | keeps hperm => rw [← weigh_append, ← weigh_append, weigh_perm hperm]
  | splits r cube entries hh horder hsame hchildren =>
      have hle := hsplit r cube entries hh horder
      subst hh
      rw [hsame, hchildren]
      show _ ≤ _ + weigh w [cube]
      rw [weigh_singleton]
      omega
  | drops r hostname cube hh _ _ hsame hnone =>
      rw [hsame, hnone]
      exact Nat.add_le_add_left (Nat.zero_le _) _

/-- Moves keep the weight if splits do and every count parses. -/
theorem CubeFlow.weight_eq {s s' : MasterServer} {h h' : Handler} (hflow : CubeFlow s h s' h')
    (hparse : h.Parses)
    (hsplit : ∀ r cube entries, h = .submitResult (.split r cube) →
      MapOrder s.taskManager.cnfData.clauses entries → weigh w (splitCubeSmart cube entries) = w cube) :
    weigh w s'.held + weigh w h'.charge = weigh w s.held + weigh w h.charge := by
  cases hflow with
  | keeps hperm => rw [← weigh_append, ← weigh_append, weigh_perm hperm]
  | splits r cube entries hh horder hsame hchildren =>
      have heq := hsplit r cube entries hh horder
      subst hh
      rw [hsame, hchildren, heq]
      show _ = _ + weigh w [cube]
      rw [weigh_singleton]
  | drops r hostname cube hh hto hval _ _ =>
      subst hh
      have hsome := hparse hto
      rw [hval] at hsome
      exact absurd hsome (by decide)

section Runs

variable {P : Cube → Prop}

/-- **Splits that do not raise the weight are all it takes.** -/
theorem System.weight_le (hr : Reaches System.step guard (.init cfg workers cnf cubes) s)
    (hstart : ∀ c ∈ cubes, P c)
    (hsplit : ∀ cube entries, P cube → MapOrder cnf.clauses entries →
      ∀ child ∈ splitCubeSmart cube entries, P child)
    (hle : ∀ cube entries, P cube → MapOrder cnf.clauses entries →
      weigh w (splitCubeSmart cube entries) ≤ w cube) : s.weight w ≤ weigh w cubes := by
  refine hr.invariant' (fun s => s.weight w ≤ weigh w cubes) ?_ ?_
  · show 0 + weigh w cubes + 0 ≤ weigh w cubes
    omega
  · intro s act s' hr hbound _ hs
    have hcnf := System.cnfData_eq hr
    have hall := System.allCubes hr hstart fun _ _ _ _ cube entries _ _ _ => hsplit cube entries
    have hfresh := fun x => @System.fresh x s (System.listed_le hr.reachable x)
    refine System.total_le (fun m => weigh w m.held) (fun _ => weigh w cubes) _ _ hs (fun _ => rfl)
      (fun _ => rfl) ?_ ?_ hbound
    · intro q server p hq hp
      have heq := hp.weight (w := w) fun x hx => hfresh x (.inl (by rw [hq]; exact hx))
      omega
    · intro h server h' hmem hm
      have hflow := hm.flow fun x hx => hfresh x (.inr ⟨h, hmem, hx⟩)
      have hmove : weigh w server.held + weigh w h'.charge ≤
          weigh w s.server.held + weigh w h.charge := by
        refine hflow.weight_le fun r cube entries hh horder => ?_
        have hcube := hall.handlers h hmem cube (by rw [hh]; exact List.mem_cons_self)
        exact hle cube entries hcube (by rwa [hcnf] at horder)
      omega

/-- **Splits that keep the weight, and counts that parse.** -/
theorem System.weight_eq (hr : Reaches System.step guard (.init cfg workers cnf cubes) s)
    (hstart : ∀ c ∈ cubes, P c)
    (hsplit : ∀ cube entries, P cube → MapOrder cnf.clauses entries →
      ∀ child ∈ splitCubeSmart cube entries, P child)
    (hparse : ∀ s act, guard s act → s.ParsesAt act)
    (heq : ∀ s i c r cube entries, guard s (.handler i c) →
      s.handlers[i]? = some (.submitResult (.split r cube)) → s.server.taskManager.cnfData = cnf →
      P cube → MapOrder cnf.clauses entries → weigh w (splitCubeSmart cube entries) = w cube) :
    s.weight w = weigh w cubes := by
  refine hr.invariant' (fun s => s.weight w = weigh w cubes) ?_ ?_
  · show 0 + weigh w cubes + 0 = weigh w cubes
    omega
  · intro s act s' hr hsum hg hs
    have hcnf := System.cnfData_eq hr
    have hall := System.allCubes hr hstart fun _ _ _ _ cube entries _ _ _ => hsplit cube entries
    have hparses := System.parses (hr.mono hparse)
    have hfresh := fun x => @System.fresh x s (System.listed_le hr.reachable x)
    refine (System.total_step hs (fun _ => rfl) (fun _ => rfl) ?_ ?_).trans hsum
    · intro q server p _ hq hp
      exact hp.weight fun x hx => hfresh x (.inl (by rw [hq]; exact hx))
    · intro i c h server h' hact hi hm
      have hmem := List.mem_of_getElem? hi
      have hflow := hm.flow fun x hx => hfresh x (.inr ⟨h, hmem, hx⟩)
      refine hflow.weight_eq (hparses h hmem) fun r cube entries hh horder => ?_
      have hcube := hall.handlers h hmem cube (by rw [hh]; exact List.mem_cons_self)
      subst hh hact
      exact heq s i c r cube entries hg hi hcnf hcube (by rwa [hcnf] at horder)

end Runs

/-! ### Counted values -/

/-- Every value that is counted for a cube is related to it by `V`. -/
def SubmitResult.Values (V : Cube → ℤ → Prop) : SubmitResult → Prop
  | .release r _ cube => r.timedOut = false → ∀ v, setString10 r.count = some v → V cube v
  | .updateWorker r _ cube => r.timedOut = false → ∀ v, setString10 r.count = some v → V cube v
  | .addCount _ cube val => V cube val
  | _ => True

/-- `Values`, for any handler. -/
def Handler.Values (V : Cube → ℤ → Prop) : Handler → Prop
  | .getTask _ => True
  | .submitResult h => h.Values V

/-- The count of the result about to be accepted, if it is no timeout and parses, is related to the cube
of its task by `V`. -/
def System.ValuesAt (V : Cube → ℤ → Prop) (s : System) (act : Action) : Prop :=
  ∀ i c r entry, act = .handler i c → s.handlers[i]? = some (.submitResult (.remove r)) →
    s.server.taskManager.checkbook.lookup r.taskId = some entry → r.timedOut = false →
    ∀ v, setString10 r.count = some v → V entry.cube v

/-- The handlers and the counted cubes of a state. -/
structure System.Valued (V : Cube → ℤ → Prop) (s : System) : Prop where
  handlers : ∀ h ∈ s.handlers, h.Values V
  counted : ∀ e ∈ s.server.history.counted, V e.2.1 e.2.2

theorem HandlerMove.counted {V : Cube → ℤ → Prop} {s s' : MasterServer} {h h' : Handler}
    (hm : HandlerMove s h s' h') (hval : h.Values V)
    (hall : ∀ e ∈ s.history.counted, V e.2.1 e.2.2) : ∀ e ∈ s'.history.counted, V e.2.1 e.2.2 := by
  have hadd : ∀ r cube val, V cube val →
      ∀ e ∈ (s.addCount r cube val).history.counted, V e.2.1 e.2.2 := by
    intro r cube val hv e he
    rcases List.mem_append.mp he with he | he
    · exact hall e he
    · rw [List.mem_singleton.mp he]
      exact hv
  cases hm with
  | getTask hg => cases hg <;> exact hall
  | submitResult hm =>
      cases hm with
      | addMeasured r cube val _ => exact hadd r cube val hval
      | addUnmeasured r cube val _ => exact hadd r cube val hval
      | _ => exact hall

/-- **What is reported of the cubes is counted for them.** -/
theorem System.valued {V : Cube → ℤ → Prop}
    (hr : Reaches System.step (System.ValuesAt V) (.init cfg workers cnf cubes) s) : s.Valued V := by
  refine hr.invariant (System.Valued V) ⟨by simp [System.init], by simp [System.init]⟩ ?_
  intro s act s' hall hg hs
  refine ⟨?_, ?_⟩
  · refine System.handlers_step hs (fun _ => trivial) (fun _ => trivial) ?_ hall.handlers
    intro i c h server h' hact hi hval hm
    cases hm with
    | getTask _ => trivial
    | submitResult hm =>
        cases hm with
        | accept r entry _ hl => exact hg i c r entry hact hi hl
        | release r hostname cube => exact hval
        | parsed r hostname cube val hto hv => exact hval hto val hv
        | _ => trivial
  · cases System.move_of_step hs with
    | solve hp =>
        have hcounted := hall.counted
        generalize s.solve = q at hp
        cases hp <;> exact hcounted
    | getTask w => exact hall.counted
    | submitResult r => exact hall.counted
    | @handler pre h post server h' c heq hm =>
        exact hm.counted (hall.handlers h (by simp [heq])) hall.counted

/-- Values that stay below the weights sum up to less. -/
theorem sum_values_le {counted : List (ℤ × Cube × ℤ)} (h : ∀ e ∈ counted, e.2.2 ≤ (w e.2.1 : ℤ)) :
    (counted.map fun e => e.2.2).sum ≤ (weigh w (counted.map fun e => e.2.1) : ℤ) := by
  induction counted with
  | nil => exact le_refl _
  | cons e counted ih =>
      have hhead := h e List.mem_cons_self
      have htail := ih fun x hx => h x (List.mem_cons_of_mem e hx)
      simp only [weigh, List.map_cons, List.sum_cons] at htail ⊢
      rw [Nat.cast_add]
      omega

theorem sum_values_eq {counted : List (ℤ × Cube × ℤ)} (h : ∀ e ∈ counted, e.2.2 = (w e.2.1 : ℤ)) :
    (counted.map fun e => e.2.2).sum = (weigh w (counted.map fun e => e.2.1) : ℤ) := by
  induction counted with
  | nil => rfl
  | cons e counted ih =>
      have hhead := h e List.mem_cons_self
      have htail := ih fun x hx => h x (List.mem_cons_of_mem e hx)
      simp only [weigh, List.map_cons, List.sum_cons] at htail ⊢
      rw [Nat.cast_add]
      omega

/-! ### Totals -/

/-- **The total and the outstanding cubes weigh no more than the initial ones.** -/
theorem System.total_le_weight {P : Cube → Prop}
    (hr : Reaches System.step guard (.init cfg workers cnf cubes) s)
    (hvalues : ∀ s act, guard s act → s.ValuesAt (fun cube v => v ≤ (w cube : ℤ)) act)
    (hstart : ∀ c ∈ cubes, P c)
    (hsplit : ∀ cube entries, P cube → MapOrder cnf.clauses entries →
      ∀ child ∈ splitCubeSmart cube entries, P child)
    (hle : ∀ cube entries, P cube → MapOrder cnf.clauses entries →
      weigh w (splitCubeSmart cube entries) ≤ w cube) :
    s.server.totalCount + (weigh w s.server.taskManager.outstanding : ℤ) ≤ (weigh w cubes : ℤ) := by
  have hweight := System.weight_le hr hstart hsplit hle
  have htotal := sum_values_le (System.valued (hr.mono hvalues)).counted
  rw [← System.totalCount_eq hr] at htotal
  have hheld : weigh w s.server.held = weigh w s.server.taskManager.outstanding +
      weigh w (s.server.history.counted.map fun e => e.2.1) := weigh_append _ _
  simp only [System.weight, System.total] at hweight
  omega

theorem Handler.charge_of_quiet {h : Handler} (hquiet : h.inWindow = false) : h.charge = [] := by
  cases h with
  | getTask _ => rfl
  | submitResult h =>
      cases h with
      | enqueue r cube newCubes e =>
          show e.pending = []
          rw [EnqueueCubes.eq_of_finished hquiet]
          rfl
      | release r hostname cube => exact Bool.noConfusion hquiet
      | updateWorker r hostname cube => exact Bool.noConfusion hquiet
      | countTimeout r cube => exact Bool.noConfusion hquiet
      | split r cube => exact Bool.noConfusion hquiet
      | addCount r cube val => exact Bool.noConfusion hquiet
      | _ => rfl

theorem Solve.charge_of_loaded {p : Solve} (hloaded : p.enqueues = false) : p.charge = [] := by
  cases p with
  | load e =>
      show e.pending = []
      rw [EnqueueCubes.eq_of_finished hloaded]
      rfl
  | broadcast cubes => exact Bool.noConfusion hloaded
  | countTotal cubes => exact Bool.noConfusion hloaded
  | _ => rfl

/-- Once nothing is outstanding or on its way, all weight is counted. -/
theorem System.Settled.weight {s : System} (hset : s.Settled) :
    s.weight w = weigh w (s.server.history.counted.map fun e => e.2.1) := by
  have hnone : (s.handlers.map fun h => weigh w h.charge).sum = 0 := by
    refine List.sum_eq_zero fun k hk => ?_
    obtain ⟨h, hh, rfl⟩ := List.mem_map.mp hk
    rw [Handler.charge_of_quiet (hset.quiet h hh)]
    rfl
  have hempty : s.server.taskManager.outstanding = [] := by
    rw [TaskManager.outstanding, hset.empty]
    rfl
  rw [System.weight, System.total, hnone, Solve.charge_of_loaded hset.loaded, MasterServer.held,
    hempty]
  rfl

/-- **What `Solve` returns weighs as much as the initial cubes**, if every value is the weight of its
cube and splits keep weights. -/
theorem System.returned_eq_weight {P : Cube → Prop} {count : ℤ}
    (hr : Reaches System.step guard (.init cfg workers cnf cubes) s)
    (hvalues : ∀ s act, guard s act → s.ValuesAt (fun cube v => v = (w cube : ℤ)) act)
    (hquiet : ∀ s act, guard s act → s.Quiet act) (hstart : ∀ c ∈ cubes, P c)
    (hsplit : ∀ cube entries, P cube → MapOrder cnf.clauses entries →
      ∀ child ∈ splitCubeSmart cube entries, P child)
    (heq : ∀ s i c r cube entries, guard s (.handler i c) →
      s.handlers[i]? = some (.submitResult (.split r cube)) → s.server.taskManager.cnfData = cnf →
      P cube → MapOrder cnf.clauses entries → weigh w (splitCubeSmart cube entries) = w cube)
    (hret : s.solve = .returned count) : count = (weigh w cubes : ℤ) := by
  have hann := System.announced (hr.mono fun s act hg => (hquiet s act hg).2)
  have hset := hann.woken (by rw [hret]; rfl)
  have hweight := System.weight_eq hr hstart hsplit (fun s act hg => (hquiet s act hg).1) heq
  have hsum := sum_values_eq (System.valued (hr.mono hvalues)).counted
  rw [hann.returned count hret, System.totalCount_eq hr, hsum, ← hset.weight, hweight]

/-! ### The models of a formula -/

section Models

variable {clauses f : List Clause} {cube : Cube} {entries : List (ℤ × ℕ)}

/-- The children have the models of the cube between them if the branching variable is declared, and none
if it is not. -/
theorem weigh_split (f : List Clause) (hn : n ≤ 2147483647) (hwf : WellFormed n clauses)
    (hok : CubeOk cube) (horder : MapOrder clauses entries) :
    weigh (modelCount n f) (splitCubeSmart cube entries) =
      if Declared n (branchVar cube entries) then modelCount n f cube else 0 := by
  have hwrap : int32 (- -2147483648) = -2147483648 := by decide
  have hchildren : weigh (modelCount n f) (splitCubeSmart cube entries) =
      modelCount n f (cube ++ [branchVar cube entries]) +
        modelCount n f (cube ++ [int32 (-branchVar cube entries)]) := by
    simp [weigh, splitCubeSmart]
  have hneg : (Declared n (branchVar cube entries) ∧
        int32 (-branchVar cube entries) = -branchVar cube entries) ∨
      (¬Declared n (branchVar cube entries) ∧ ¬Declared n (int32 (-branchVar cube entries))) := by
    rcases branchVar_range hn hwf hok horder with ⟨hpos, hle⟩ | ⟨hmin, -⟩
    · rw [int32_neg ⟨by omega, by omega⟩ (by omega)]
      by_cases hdecl : Declared n (branchVar cube entries)
      · exact .inl ⟨hdecl, rfl⟩
      · exact .inr ⟨hdecl, fun h => hdecl (neg_neg (branchVar cube entries) ▸ h.neg)⟩
    · rw [hmin, hwrap]
      unfold Declared
      omega
  rcases hneg with ⟨hdecl, hopp⟩ | ⟨hundecl, hopp⟩
  · rw [hchildren, hopp, if_pos hdecl]
    exact (modelCount_split hdecl).symm
  · rw [hchildren, if_neg hundecl, modelCount_undeclared hundecl, modelCount_undeclared hopp]

/-- No split raises the models. -/
theorem weigh_split_le (f : List Clause) (hn : n ≤ 2147483647) (hwf : WellFormed n clauses)
    (hok : CubeOk cube) (horder : MapOrder clauses entries) :
    weigh (modelCount n f) (splitCubeSmart cube entries) ≤ modelCount n f cube := by
  rw [weigh_split f hn hwf hok horder]
  split
  · exact le_refl _
  · exact Nat.zero_le _

/-- A split keeps the models if there is room for it, or nothing to lose. -/
theorem weigh_split_eq {f : List Clause} (hroom : SplitRoom n clauses cube ∨ modelCount n f cube = 0)
    (hn : n ≤ 2147483647) (hwf : WellFormed n clauses) (hok : CubeOk cube)
    (horder : MapOrder clauses entries) :
    weigh (modelCount n f) (splitCubeSmart cube entries) = modelCount n f cube := by
  rcases hroom with hroom | hzero
  · obtain ⟨hlow, hhigh, -⟩ := hroom.branchVar hn hwf hok horder
    rw [weigh_split f hn hwf hok horder, if_pos ⟨by omega, by omega⟩]
  · have hle := weigh_split_le f hn hwf hok horder
    omega

theorem weigh_splitRound {order : ℕ → List (ℤ × ℕ)} (k : ℕ) (cube : Cube) (cubes : List Cube) :
    weigh w (splitRound order k (cube :: cubes)) =
      weigh w (splitCubeSmart cube (order k)) + weigh w (splitRound order (k + 1) cubes) := by
  unfold splitRound
  rw [List.zipIdx_cons, List.flatMap_cons, weigh_append]

/-- **What every split does to the weight, the rounds do**: keep it, or not raise it. -/
theorem weigh_initialRounds {order : ℕ → List (ℤ × ℕ)} {P : Cube → Prop} {R : ℕ → ℕ → Prop}
    (hrefl : ∀ x, R x x) (htrans : ∀ {x y z}, R x y → R y z → R x z)
    (hadd : ∀ {x y x' y'}, R x y → R x' y' → R (x + x') (y + y')) (r : ℕ)
    (hP : ∀ q < r, ∀ cube ∈ initialRounds order q, P cube)
    (hsplit : ∀ k cube, P cube → R (weigh w (splitCubeSmart cube (order k))) (w cube)) :
    R (weigh w (initialRounds order r)) (w []) := by
  have hround : ∀ (cubes : List Cube) (k : ℕ), (∀ cube ∈ cubes, P cube) →
      R (weigh w (splitRound order k cubes)) (weigh w cubes) := by
    intro cubes
    induction cubes with
    | nil => exact fun _ _ => hrefl _
    | cons cube cubes ih =>
        intro k hcubes
        obtain ⟨hhead, htail⟩ := List.forall_mem_cons.mp hcubes
        rw [weigh_splitRound]
        exact hadd (hsplit k cube hhead) (ih (k + 1) htail)
  induction r with
  | zero =>
      have hroot : weigh w (initialRounds order 0) = w [] := weigh_singleton []
      rw [hroot]
      exact hrefl _
  | succ r ih =>
      exact htrans (hround _ _ (hP r (Nat.lt_succ_self r)))
        (ih fun q hq => hP q (Nat.lt_succ_of_lt hq))

end Models

/-! ### The total and the model count -/

/-- No count that is accepted exceeds the models of its cube; it may be too low. -/
def System.ModestAt (n : ℕ) (f : List Clause) : System → Action → Prop :=
  System.ValuesAt fun cube v => v ≤ (modelCount n f cube : ℤ)

/-- Every accepted result that is no timeout carries the number of models of its cube. -/
def System.ExactAt (n : ℕ) (f : List Clause) (s : System) (act : Action) : Prop :=
  s.ParsesAt act ∧ s.ValuesAt (fun cube v => v = (modelCount n f cube : ℤ)) act

/-- A cube that is split has room for it, or no models. -/
def System.RoomAt (n : ℕ) (f : List Clause) (s : System) (act : Action) : Prop :=
  ∀ i c r cube, act = .handler i c → s.handlers[i]? = some (.submitResult (.split r cube)) →
    SplitRoom n s.server.taskManager.cnfData.clauses cube ∨ modelCount n f cube = 0

/-- Exact counts, quiet reads, and room for the splits. -/
def System.Faithful (n : ℕ) (f : List Clause) (s : System) (act : Action) : Prop :=
  s.ExactAt n f act ∧ s.QuietAt act ∧ s.RoomAt n f act

/-- `Faithful`, evaluated for runs without timeouts. -/
def System.faithfulCheck (n : ℕ) (clauses : List Clause) (s : System) : Action → Bool
  | .handler i _ =>
      match s.handlers[i]? with
      | some (.submitResult (.remove r)) =>
          match s.server.taskManager.checkbook.lookup r.taskId with
          | some entry =>
              !r.timedOut && setString10 r.count == some (modelCount n clauses entry.cube : ℤ)
          | none => true
      | some (.submitResult (.readActive _)) =>
          !s.server.taskManager.isEmptyActive || !s.solve.enqueues &&
            s.handlers.all (fun h => !h.inWindow) &&
            decide (s.server.taskManager.checkbook.keys.length < 4294967296)
      | some (.submitResult (.split _ _)) => false
      | _ => true
  | _ => true

theorem System.faithful_of_check {s : System} {clauses : List Clause} {act : Action}
    (h : s.faithfulCheck n clauses act = true) : s.Faithful n clauses act := by
  have hcount : ∀ i c r entry, act = .handler i c →
      s.handlers[i]? = some (.submitResult (.remove r)) →
      s.server.taskManager.checkbook.lookup r.taskId = some entry →
      setString10 r.count = some (modelCount n clauses entry.cube : ℤ) := by
    intro i c r entry hact hi hl
    subst hact
    simp only [System.faithfulCheck, hi, hl, Bool.and_eq_true, beq_iff_eq] at h
    exact h.2
  refine ⟨⟨fun i c r hact hi hmem _ => ?_, fun i c r entry hact hi hl _ v hv => ?_⟩,
    fun i c r hact hi hidle => ?_, fun i c r cube hact hi => ?_⟩
  · obtain ⟨entry, hl⟩ := Option.isSome_iff_exists.mp (AList.lookup_isSome.mpr hmem)
    rw [hcount i c r entry hact hi hl]
    rfl
  · exact Option.some.inj (hv.symm.trans (hcount i c r entry hact hi hl))
  · subst hact
    simpa [System.faithfulCheck, hi, hidle, and_assoc] using h
  · subst hact
    simp [System.faithfulCheck, hi] at h

/-- **The total is a lower bound at all times.**  The workers count models of `f`, and the splitter looks
at its own clauses.  Whatever is lost, dropped, submitted twice or split beyond the header: as long as no
accepted count exceeds the models of its cube, the total and the models of the outstanding cubes do not
exceed the model count. -/
theorem System.totalCount_le_models {order : ℕ → List (ℤ × ℕ)} {f : List Clause}
    (hn : n ≤ 2147483647) (hwf : WellFormed n cnf.clauses)
    (horder : ∀ k, MapOrder cnf.clauses (order k))
    (hr : Reaches System.step (System.ModestAt n f) (.init cfg workers cnf (initialCubes order)) s) :
    s.server.totalCount + (weigh (modelCount n f) s.server.taskManager.outstanding : ℤ) ≤
      (modelCount n f [] : ℤ) := by
  have hrounds : weigh (modelCount n f) (initialCubes order) ≤ modelCount n f [] :=
    weigh_initialRounds le_refl le_trans Nat.add_le_add 6
      (fun q _ => initialRounds_reachable horder q)
      fun k cube hcube => weigh_split_le f hn hwf (hcube.cubeOk hn hwf) (horder k)
  have htotal := System.total_le_weight hr (fun _ _ hg => hg) (initialRounds_reachable horder 6)
    (fun cube entries hcube hvisit child hchild => .split hcube hvisit hchild)
    fun cube entries hcube hvisit => weigh_split_le f hn hwf (hcube.cubeOk hn hwf) hvisit
  omega

/-- The first of the initial cubes, solved while `Solve` is loading the others. -/
def firstCounted : List Action :=
  [List.replicate 6 .solve, [.getTask workerA], List.replicate 6 (.handler 0 .go),
    [.submitResult (answer 1 "2")], List.replicate 4 (.handler 1 .go)].flatten

theorem System.totalCount_le_models_firstCounted : ∃ s : System, s.server.totalCount = 2 ∧
    s.server.totalCount + (weigh (modelCount 7 sevenVars.clauses) s.server.taskManager.outstanding : ℤ) ≤
      (modelCount 7 sevenVars.clauses [] : ℤ) := by
  have hrun : (exec (fun s a => if System.faithfulCheck 7 sevenVars.clauses s a then System.step s a
      else none) sevenVarsInit firstCounted).map (fun s => s.server.totalCount) = some 2 := by
    decide +kernel
  obtain ⟨s, hs, htotal⟩ := Option.map_eq_some_iff.mp hrun
  have hr : Reaches System.step (System.ModestAt 7 sevenVars.clauses) sevenVarsInit s :=
    Reaches.of_exec_checked (fun s a h i c r entry hact hi hl hto v hv =>
      le_of_eq ((System.faithful_of_check h).1.2 i c r entry hact hi hl hto v hv)) hs
  exact ⟨s, htotal, System.totalCount_le_models (by decide) (by decide)
    (fun _ => List.Perm.refl _) hr⟩

/-- **`Solve` returns the model count**: with exact counts, when completion is announced while nothing
is on its way, and as long as there are variables to branch on. -/
theorem System.returns_models {order : ℕ → List (ℤ × ℕ)} {f : List Clause} {count : ℤ}
    (hn : n ≤ 2147483647) (hwf : WellFormed n cnf.clauses)
    (horder : ∀ k, MapOrder cnf.clauses (order k))
    (hrounds : ∀ r < 6, ∀ cube ∈ initialRounds order r,
      SplitRoom n cnf.clauses cube ∨ modelCount n f cube = 0)
    (hr : Reaches System.step (System.Faithful n f) (.init cfg workers cnf (initialCubes order)) s)
    (hret : s.solve = .returned count) : count = (modelCount n f [] : ℤ) := by
  have hsum : weigh (modelCount n f) (initialCubes order) = modelCount n f [] := by
    refine weigh_initialRounds (R := Eq) (P := fun cube => SplitReachable cnf.clauses cube ∧
      (SplitRoom n cnf.clauses cube ∨ modelCount n f cube = 0)) (fun _ => rfl) Eq.trans
      (fun h h' => by rw [h, h']) 6 ?_ ?_
    · exact fun q hq cube hcube =>
        ⟨initialRounds_reachable horder q cube hcube, hrounds q hq cube hcube⟩
    · exact fun k cube hcube =>
        weigh_split_eq hcube.2 hn hwf (hcube.1.cubeOk hn hwf) (horder k)
  rw [← hsum]
  refine System.returned_eq_weight hr (fun _ _ hg => hg.1.2) (fun _ _ hg => ⟨hg.1.1, hg.2.1⟩)
    (initialRounds_reachable horder 6)
    (fun cube entries hcube hvisit child hchild => .split hcube hvisit hchild) ?_ hret
  intro s i c r cube entries hg hi hcnf hcube hvisit
  have hroom := hg.2.2 i c r cube rfl hi
  rw [hcnf] at hroom
  exact weigh_split_eq hroom hn hwf (hcube.cubeOk hn hwf) hvisit

/-- `Solve` loads the cubes of `main`, and one worker solves them in turn. -/
def oneByOne (counts : List String) : List Action :=
  List.replicate (4 * counts.length + 3) .solve ++
    counts.zipIdx.flatMap (fun p =>
      [[.getTask workerA], List.replicate 6 (.handler (2 * p.2) .go),
        [.submitResult (answer (p.2 + 1) p.1)],
        List.replicate 6 (.handler (2 * p.2 + 1) .go)].flatten) ++
    List.replicate 2 (.handler (2 * counts.length - 1) .go) ++ List.replicate 2 .solve

/-- What `Solve` has returned. -/
def Solve.result : Solve → Option ℤ
  | .returned count => some count
  | _ => none

theorem Solve.eq_of_result {p : Solve} {count : ℤ} (h : p.result = some count) : p = .returned count := by
  cases p with
  | returned c => exact congrArg Solve.returned (Option.some.inj h)
  | _ => cases h

/-- Six of the seven variables are in the cubes; only the last cube makes the clause a unit. -/
theorem System.returns_models_oneByOne : ∃ s : System, s.solve = .returned 127 ∧
    (127 : ℤ) = (modelCount 7 sevenVars.clauses [] : ℤ) := by
  have hrun : (exec (fun s a => if System.faithfulCheck 7 sevenVars.clauses s a then System.step s a
      else none) sevenVarsInit (oneByOne (List.replicate 63 "2" ++ ["1"]))).map
        (fun s => s.solve.result) = some (some 127) := by
    decide +kernel
  have hfree : ∀ r < 6, ∀ cube ∈ initialRounds (fun _ => freqTable sevenVars.clauses) r,
      ∀ l ∈ cube, l.natAbs ≠ 1 := by decide
  obtain ⟨s, hs, hret⟩ := Option.map_eq_some_iff.mp hrun
  have hcount := Solve.eq_of_result hret
  have hr := Reaches.of_exec_checked (fun _ _ => System.faithful_of_check) hs
  refine ⟨s, hcount, System.returns_models (by decide) (by decide) (fun _ => List.Perm.refl _) ?_ hr
    hcount⟩
  intro r hlt cube hcube
  refine .inl (.inl ⟨_, List.mem_cons_self, 1, List.mem_cons_self, ?_⟩)
  rintro ⟨l, hl, habs⟩
  exact hfree r hlt cube hcube l hl habs

end HydraSAT.Master
