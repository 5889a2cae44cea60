import HydraSAT.Master.Outcome
import HydraSAT.Master.WorkBound

/-!
# Every cube exactly once

As long as a split branches on a variable that the register holds, its children partition the cube.
Every literal of a cube is one of the formula or one of the successors that the fallback has appended, so
that the register suffices for all splits of a run if it holds the highest variable and as many successors
as there are rounds and timeouts beyond the variables of the formula.

* `Grown`: the literals a cube can have;
* `System.deep`: no cube is longer than the six rounds and the timeouts;
* `System.orderly`: hence no split of the run overflows;
* `System.accepted_nodup`: no id is accepted twice;
* `System.exactly_once`: every assignment is in exactly one place, no id goes out twice, and the total is
  the sum of the counts accepted for the counted cubes;
* `System.overlaps`: without the bound the initial cubes overlap.
-/

namespace HydraSAT.Master

open HydraSAT.Lib

variable {clauses : List Clause} {cube : Cube} {entries : List (ℤ × ℕ)}

/-! ### The literals of a cube -/

/-- The highest variable of the clauses. -/
def highestVar (clauses : List Clause) : ℕ := (clauses.flatten.map Int.natAbs).foldr max 0

/-- How many variables the clauses have. -/
def variableCount (clauses : List Clause) : ℕ := (clauses.flatten.map Int.natAbs).dedup.length

/-- The literals of the cube are nonzero, and go beyond the variables of the clauses by no more than the
cube is longer than these variables are many. -/
def Grown (clauses : List Clause) (cube : Cube) : Prop :=
  ∀ l ∈ cube, l ≠ 0 ∧ l.natAbs ≤ highestVar clauses + (cube.length - variableCount clauses)

theorem le_highestVar {l : ℤ} (hl : l ∈ clauses.flatten) : l.natAbs ≤ highestVar clauses := by
  have hle : ∀ (xs : List ℕ) (x : ℕ), x ∈ xs → x ≤ xs.foldr max 0 := by
    intro xs x hx
    induction xs with
    | nil => exact absurd hx List.not_mem_nil
    | cons y xs ih =>
        rcases List.mem_cons.mp hx with rfl | hx
        · exact le_max_left _ _
        · exact (ih hx).trans (le_max_right _ _)
  exact hle _ _ (List.mem_map_of_mem hl)

/-- The variable of a literal of a grown cube. -/
theorem Grown.varOf (hgrown : Grown clauses cube)
    (hroom : highestVar clauses + (cube.length + 1 - variableCount clauses) ≤ 2147483647) {l : ℤ}
    (hl : l ∈ cube) : Master.varOf l = l.natAbs := by
  have hle := (hgrown l hl).2
  exact varOf_eq_natAbs ⟨by omega, by omega⟩ (by omega)

/-- A cube with all variables of the clauses is as long as they are many. -/
theorem Grown.count_le (hsmall : SmallLits clauses) (hgrown : Grown clauses cube)
    (hroom : highestVar clauses + (cube.length + 1 - variableCount clauses) ≤ 2147483647)
    (hall : ∀ v, Occurs clauses v → inCube cube v = true) : variableCount clauses ≤ cube.length := by
  have hsub : (clauses.flatten.map Int.natAbs).dedup ⊆ cube.map Int.natAbs := by
    intro v hv
    obtain ⟨lit, hlit, rfl⟩ := List.mem_map.mp (List.mem_dedup.mp hv)
    obtain ⟨clause, hclause, hmem⟩ := List.mem_flatten.mp hlit
    obtain ⟨hvar, hpos, -⟩ := hsmall.varOf hclause hmem
    obtain ⟨l, hl, heq⟩ := mem_inCube.mp (hall _ ⟨by omega, clause, hclause, lit, hmem, rfl⟩)
    rw [hgrown.varOf hroom hl, hvar] at heq
    exact List.mem_map.mpr ⟨l, hl, Int.ofNat_inj.mp heq⟩
  have hle := ((List.nodup_dedup _).subperm hsub).length_le
  rwa [List.length_map] at hle

theorem Grown.maxVar_le (hgrown : Grown clauses cube)
    (hroom : highestVar clauses + (cube.length + 1 - variableCount clauses) ≤ 2147483647) :
    maxVar cube ≤ (highestVar clauses + (cube.length - variableCount clauses) : ℕ) := by
  rcases maxVar_attained cube with hzero | ⟨l, hl, heq⟩
  · omega
  · have hle := (hgrown l hl).2
    rw [heq, hgrown.varOf hroom hl]
    omega

/-- **There is room for the split.** -/
theorem Grown.fits (hsmall : SmallLits clauses) (hgrown : Grown clauses cube)
    (hroom : highestVar clauses + (cube.length + 1 - variableCount clauses) ≤ 2147483647) :
    SplitFits clauses cube := by
  intro hall
  have hcount := hgrown.count_le hsmall hroom hall
  have hmax := hgrown.maxVar_le hroom
  omega

/-- The branching variable is one of the clauses, or the next one after those of the cube. -/
theorem Grown.branchVar_le (hsmall : SmallLits clauses) (horder : MapOrder clauses entries)
    (hgrown : Grown clauses cube)
    (hroom : highestVar clauses + (cube.length + 1 - variableCount clauses) ≤ 2147483647) :
    branchVar cube entries ≤ (highestVar clauses + (cube.length + 1 - variableCount clauses) : ℕ) := by
  rcases branchVar_cases horder cube with ⟨⟨-, clause, hclause, lit, hlit, hvar⟩, -⟩ | ⟨hall, heq⟩
  · have hle := le_highestVar (List.mem_flatten.mpr ⟨clause, hclause, hlit⟩)
    rw [← hvar, (hsmall.varOf hclause hlit).1]
    omega
  · have hcount := hgrown.count_le hsmall hroom hall
    have hmax := hgrown.maxVar_le hroom
    have hnonneg := maxVar_nonneg cube
    rw [heq, int32_of_range ⟨by omega, by omega⟩]
    omega

/-- **The children are grown.** -/
theorem Grown.split (hsmall : SmallLits clauses) (horder : MapOrder clauses entries)
    (hgrown : Grown clauses cube)
    (hroom : highestVar clauses + (cube.length + 1 - variableCount clauses) ≤ 2147483647) :
    ∀ child ∈ splitCubeSmart cube entries, Grown clauses child := by
  have hfits := hgrown.fits hsmall hroom
  have hpos := (branchVar_pos hsmall horder hfits).1
  have hle := hgrown.branchVar_le hsmall horder hroom
  have hchild : ∀ b : ℤ, b.natAbs = (branchVar cube entries).natAbs → Grown clauses (cube ++ [b]) := by
    intro b hb l hl
    rw [List.length_append, List.length_singleton]
    rcases List.mem_append.mp hl with hl | hl
    · obtain ⟨hne, hold⟩ := hgrown l hl
      exact ⟨hne, by omega⟩
    · rw [List.mem_singleton.mp hl]
      exact ⟨by omega, by omega⟩
  rw [splitCubeSmart_eq hsmall horder hfits]
  intro child hmem
  rcases List.mem_cons.mp hmem with rfl | hmem
  · exact hchild _ rfl
  · rw [List.mem_singleton.mp hmem]
    exact hchild _ (Int.natAbs_neg _)

/-- The initial cubes are grown. -/
theorem grown_initialRounds {order : ℕ → List (ℤ × ℕ)} (hsmall : SmallLits clauses)
    (horder : ∀ k, MapOrder clauses (order k)) {r : ℕ}
    (hroom : highestVar clauses + (r - variableCount clauses) ≤ 2147483647) :
    ∀ cube ∈ initialRounds order r, Grown clauses cube := by
  induction r with
  | zero =>
      intro cube hmem
      rw [List.mem_singleton.mp hmem]
      exact fun _ hl => absurd hl List.not_mem_nil
  | succ r ih =>
      intro child hmem
      obtain ⟨ci, hci, hchild⟩ := List.mem_flatMap.mp hmem
      have hparent := List.fst_mem_of_mem_zipIdx hci
      have hlength := length_of_mem_initialRounds hparent
      exact (ih (by omega) _ hparent).split hsmall (horder _) (by rw [hlength]; exact hroom) child hchild

/-! ### How long cubes get -/

/-- The cubes that a handler is going to split. -/
def SubmitResult.toSplit : SubmitResult → List Cube
  | .release r _ cube => if r.timedOut then [cube] else []
  | .updateWorker r _ cube => if r.timedOut then [cube] else []
  | .countTimeout _ cube => [cube]
  | .split _ cube => [cube]
  | _ => []

/-- `toSplit`, for any handler. -/
def Handler.toSplit : Handler → List Cube
  | .getTask _ => []
  | .submitResult h => h.toSplit

/-- No cube is longer than the rounds and the timeouts, and those about to be split are shorter. -/
structure System.Deep (s : System) : Prop where
  cubes : s.AllCubes fun c => c.length ≤ 6 + s.server.timeouts
  splits : ∀ h ∈ s.handlers, ∀ c ∈ h.toSplit, c.length < 6 + s.server.timeouts

/-- A handler gets a cube to split by accepting a timeout for it. -/
theorem HandlerMove.toSplit {s s' : MasterServer} {h h' : Handler} (hm : HandlerMove s h s' h') {c : Cube}
    (hc : c ∈ h'.toSplit) :
    c ∈ h.toSplit ∨ (c ∈ s.taskManager.outstanding ∧ s'.timeouts = s.timeouts + 1) := by
  cases hm with
  | getTask _ => exact absurd hc List.not_mem_nil
  | submitResult hm =>
      cases hm with
      | accept r entry _ hl =>
          refine .inr ?_
          have htimeouts : (s.accept r).timeouts = s.timeouts + [r].countP fun r => r.timedOut :=
            List.countP_append
          cases hto : r.timedOut with
          | false => simp [Handler.toSplit, SubmitResult.toSplit, hto] at hc
          | true =>
              rw [htimeouts, List.countP_singleton, if_pos hto]
              obtain rfl : c = entry.cube := by
                simpa [Handler.toSplit, SubmitResult.toSplit, hto] using hc
              exact ⟨(TaskManager.outstanding_deleteTask hl).mem_iff.mpr List.mem_cons_self, rfl⟩
      | release r hostname cube => exact .inl hc
      | timedOut r hostname cube hto =>
          refine .inl ?_
          show c ∈ if r.timedOut then [cube] else []
          rw [if_pos hto]
          exact hc
      | countTimeout r cube => exact .inl hc
      | _ => exact absurd hc List.not_mem_nil

section Runs

variable {cfg : HeuristicConfig} {workers : WorkerTracker} {cnf : CNFData} {cubes : List Cube}
  {guard : System → Action → Prop} {s : System} {order : ℕ → List (ℤ × ℕ)}

theorem System.deep
    (hr : Reaches System.step guard (.init cfg workers cnf (initialCubes order)) s) : s.Deep := by
  refine hr.invariant' System.Deep ⟨System.allCubes_init fun c hc => ?_, fun h hh => ?_⟩ ?_
  · exact (length_of_mem_initialRounds hc).le.trans (Nat.le_add_right _ _)
  · exact absurd hh List.not_mem_nil
  intro s act s' hr hdeep _ hs
  have hmono : s.server.timeouts ≤ s'.server.timeouts := by
    rcases System.timeouts_step hs with heq | ⟨-, -, -, -, -, -, -, heq⟩ <;> omega
  refine ⟨?_, ?_⟩
  · have hall : s.AllCubes fun c => c.length ≤ 6 + s'.server.timeouts :=
      ⟨fun c hc => (hdeep.cubes.server c hc).trans (by omega),
        fun c hc => (hdeep.cubes.solve c hc).trans (by omega),
        fun h hh c hc => (hdeep.cubes.handlers h hh c hc).trans (by omega)⟩
    refine hall.step hs (System.listed_le hr.reachable) ?_
    intro i c r cube entries _ hi _ _ child hchild
    have hlt := hdeep.splits _ (List.mem_of_getElem? hi) cube List.mem_cons_self
    simp only [splitCubeSmart, List.mem_cons, List.not_mem_nil, or_false] at hchild
    rcases hchild with rfl | rfl
    all_goals
      rw [List.length_append, List.length_singleton]
      omega
  · have hold : ∀ h ∈ s.handlers, ∀ c ∈ h.toSplit, c.length < 6 + s'.server.timeouts :=
      fun h hh c hc => (hdeep.splits h hh c hc).trans_le (by omega)
    cases System.move_of_step hs with
    | solve _ => exact hold
    | getTask w => exact forall_arrive hold fun _ hc => absurd hc List.not_mem_nil
    | submitResult r => exact forall_arrive hold fun _ hc => absurd hc List.not_mem_nil
    | @handler pre h post server h' c heq hm =>
        have hself : ∀ c ∈ h'.toSplit, c.length < 6 + server.timeouts := by
          intro c hc
          rcases hm.toSplit hc with hc | ⟨hc, htimeouts⟩
          · exact hold h (by simp [heq]) c hc
          · have hle := hdeep.cubes.server c (List.mem_append_left _ hc)
            omega
        rw [heq] at hold
        exact forall_exchange hold hself

/-- **No split is deeper** than the rounds and the timeouts of the run. -/
theorem System.reaches_shallow {d : ℕ}
    (hr : Reaches System.step guard (.init cfg workers cnf (initialCubes order)) s)
    (hd : 6 + s.server.timeouts ≤ d) :
    Reaches System.step (fun s act => guard s act ∧ s.ShallowAt d act)
      (.init cfg workers cnf (initialCubes order)) s := by
  induction hr with
  | start => exact .start
  | @next s s' act hr hg hs ih =>
      have hmono : s.server.timeouts ≤ s'.server.timeouts := by
        rcases System.timeouts_step hs with heq | ⟨-, -, -, -, -, -, -, heq⟩ <;> omega
      refine (ih (by omega)).next ⟨hg, fun i c r cube _ hi => ?_⟩ hs
      have hlt := (System.deep hr).splits _ (List.mem_of_getElem? hi) cube List.mem_cons_self
      omega

/-- **No split of the run overflows.** -/
theorem System.orderly (hsmall : SmallLits cnf.clauses)
    (horder : ∀ k, MapOrder cnf.clauses (order k))
    (hr : Reaches System.step System.ParsesAt (.init cfg workers cnf (initialCubes order)) s)
    (hroom : highestVar cnf.clauses + (6 + s.server.timeouts - variableCount cnf.clauses) ≤
      2147483647) :
    Reaches System.step System.Orderly (.init cfg workers cnf (initialCubes order)) s := by
  have hshallow := System.reaches_shallow hr (le_refl _)
  refine hshallow.mono' fun t act hrt hg => ⟨hg.1, fun i c r cube hact hi => ?_⟩
  have hall : t.AllCubes (Grown cnf.clauses) := by
    refine System.allCubes hrt (grown_initialRounds hsmall horder (by omega)) ?_
    intro u i c r cube entries hg hi _ hgrown hvisit
    have hlt := hg.2 i c r cube rfl hi
    exact hgrown.split hsmall hvisit (by omega)
  have hlt := hg.2 i c r cube hact hi
  have hgrown := hall.handlers _ (List.mem_of_getElem? hi) cube List.mem_cons_self
  rw [System.cnfData_eq hrt]
  exact hgrown.fits hsmall (by omega)

/-! ### Accepted results -/

/-- How often an id is in the checkbook or was accepted. -/
def MasterServer.spent (x : ℤ) (s : MasterServer) : ℕ :=
  s.taskManager.listed x + (s.history.accepted.map (·.taskId)).count x

theorem SubmitMove.spent {s s' : MasterServer} {h h' : SubmitResult} (hm : SubmitMove s h s' h')
    (x : ℤ) : s'.spent x + h'.call.drawn.count x + s.taskManager.born x ≤
      s.spent x + h.call.drawn.count x + s'.taskManager.born x := by
  have hlisted := hm.listed x
  have hkeeps : s'.history.accepted = s.history.accepted →
      s'.spent x + h'.call.drawn.count x + s.taskManager.born x ≤
        s.spent x + h.call.drawn.count x + s'.taskManager.born x := by
    intro haccepted
    rw [MasterServer.spent, MasterServer.spent, haccepted]
    omega
  cases hm with
  | accept r entry _ hl =>
      have hborn : (s.accept r).taskManager.born x = s.taskManager.born x := by
        show (s.taskManager.deleteTask r.taskId).born x = _
        unfold TaskManager.deleteTask
        split <;> rfl
      have hmem : r.taskId ∈ s.taskManager.checkbook.keys :=
        AList.mem_keys.mp (AList.lookup_isSome.mp (by rw [hl]; rfl))
      have hkeys : (s.accept r).taskManager.checkbook.keys =
          s.taskManager.checkbook.keys.erase r.taskId := by
        show (s.taskManager.deleteTask r.taskId).checkbook.keys = _
        rw [TaskManager.deleteTask, hl]
        exact AList.keys_erase _ _
      have hcount := (List.perm_cons_erase hmem).count_eq x
      have haccepted : (s.accept r).history.accepted.map (·.taskId) =
          s.history.accepted.map (·.taskId) ++ [r.taskId] := List.map_append
      rw [List.count_cons] at hcount
      rw [hborn, MasterServer.spent, MasterServer.spent, haccepted, TaskManager.listed,
        TaskManager.listed, hkeys, hcount, List.count_append, List.count_singleton]
      simp only [SubmitResult.call, EnqueueCubes.drawn, List.count_nil]
      omega
  | _ => exact hkeeps rfl

/-- **No id is accepted twice.** -/
theorem System.accepted_nodup (hr : Reachable System.step (.init cfg workers cnf cubes) s) :
    (s.server.history.accepted.map (·.taskId)).Nodup := by
  refine List.nodup_iff_count_le_one.mpr fun x => ?_
  have hle := System.total_le_born hr x (fun m => m.spent x) (fun e => e.drawn.count x)
    (fun _ => rfl) rfl ?_ ?_ (fun _ _ _ _ hm => hm.spent x)
  · have hone := hle.trans (TaskManager.born_le x _)
    simp only [System.total, MasterServer.spent] at hone
    omega
  · intro m p m' p' hp
    cases hp with
    | load e tm' e' he =>
        have hlisted := enqueueStep_listed x he
        simp only [MasterServer.spent, Solve.call]
        omega
    | _ => exact le_refl _
  · intro m g m' g' hg
    obtain ⟨hlisted, hnext⟩ := hg.listed x
    refine ⟨?_, hnext⟩
    have haccepted : m'.history.accepted = m.history.accepted := by cases hg <;> rfl
    rw [MasterServer.spent, MasterServer.spent, hlisted, haccepted]

/-- The counted ids and values are those of accepted results. -/
theorem System.counted_subperm
    (hr : Reaches System.step guard (.init cfg workers cnf cubes) s) :
    (s.server.history.counted.map fun e => (e.1, e.2.2)).Subperm
      (s.server.history.accepted.filterMap TaskResult.leaf) := by
  refine List.subperm_iff_count.mpr fun x => ?_
  have hzero := System.leaves_balance x hr
  have howes : 0 ≤ (s.handlers.map fun h => (h.owes.count x : ℤ)).sum :=
    List.sum_nonneg fun n hn => by
      obtain ⟨h, -, rfl⟩ := List.mem_map.mp hn
      exact Int.natCast_nonneg _
  simp only [System.total, MasterServer.added] at hzero
  have hsame : (instBEqOfDecidableEq : BEq (ℤ × ℤ)) = instBEqProd := lawful_beq_subsingleton _ _
  rw [hsame]
  omega

/-- **What is counted was accepted**, as the count of a result that is no timeout. -/
theorem System.counted_accepted
    (hr : Reaches System.step guard (.init cfg workers cnf cubes) s) {e : ℤ × Cube × ℤ}
    (he : e ∈ s.server.history.counted) : ∃ r ∈ s.server.history.accepted, r.taskId = e.1 ∧
      r.timedOut = false ∧ setString10 r.count = some e.2.2 := by
  have hmem := (System.counted_subperm hr).subset (List.mem_map_of_mem (f := fun e => (e.1, e.2.2)) he)
  obtain ⟨r, hr', hleaf⟩ := List.mem_filterMap.mp hmem
  unfold TaskResult.leaf at hleaf
  split at hleaf
  · cases hleaf
  · rename_i hto
    obtain ⟨val, hval, hpair⟩ := Option.map_eq_some_iff.mp hleaf
    obtain ⟨hid, rfl⟩ := Prod.mk.inj hpair
    exact ⟨r, hr', hid, by simpa using hto, hval⟩

/-- No id is counted twice. -/
theorem System.counted_nodup (hr : Reaches System.step guard (.init cfg workers cnf cubes) s) :
    (s.server.history.counted.map Prod.fst).Nodup := by
  have hleaf : ∀ rs : List TaskResult,
      ((rs.filterMap TaskResult.leaf).map Prod.fst).Sublist (rs.map (·.taskId)) := by
    intro rs
    induction rs with
    | nil => exact List.Sublist.refl _
    | cons r rs ih =>
        cases hr : r.leaf with
        | none =>
            rw [List.filterMap_cons, hr]
            exact ih.cons _
        | some p =>
            have hid : p.1 = r.taskId := by
              unfold TaskResult.leaf at hr
              split at hr
              · cases hr
              · obtain ⟨val, -, rfl⟩ := Option.map_eq_some_iff.mp hr
                rfl
            rw [List.filterMap_cons, hr, List.map_cons, List.map_cons, hid]
            exact ih.cons_cons _
  have hnodup := (System.accepted_nodup hr.reachable).sublist (hleaf _)
  obtain ⟨l, hperm, hsub⟩ := System.counted_subperm hr
  have hids := (hperm.map Prod.fst).nodup_iff.mp (hnodup.sublist (hsub.map Prod.fst))
  rwa [List.map_map] at hids

/-! ### The ledger -/

/-- **No cube is lost or counted twice.**  From the initial cubes of `main`, in every run whose accepted
results parse, and once `Solve` has loaded: every assignment is in exactly one region as long as the
register has successors for the rounds and the timeouts; no id is handed out twice; the total is the sum of
the counts of the counted cubes; and these are the counts of accepted results for their ids, each id
counted once. -/
theorem System.exactly_once (hsmall : SmallLits cnf.clauses)
    (horder : ∀ k, MapOrder cnf.clauses (order k))
    (hr : Reaches System.step System.ParsesAt (.init cfg workers cnf (initialCubes order)) s)
    (hloaded : s.solve.loaded = true) :
    (highestVar cnf.clauses + (6 + s.server.timeouts - variableCount cnf.clauses) ≤ 2147483647 →
      ∀ a, s.regions a = 1) ∧
      s.server.history.handedOut.Nodup ∧
      s.server.totalCount = (s.server.history.counted.map fun e => e.2.2).sum ∧
      (s.server.history.counted.map Prod.fst).Nodup ∧
      ∀ e ∈ s.server.history.counted, ∃ r ∈ s.server.history.accepted, r.taskId = e.1 ∧
        r.timedOut = false ∧ setString10 r.count = some e.2.2 := by
  refine ⟨fun hroom a => ?_, System.handedOut_nodup hr.reachable, System.totalCount_eq hr,
    System.counted_nodup hr, fun e he => System.counted_accepted hr he⟩
  rw [System.regions_eq a hsmall (System.orderly hsmall horder hr hroom) hloaded]
  refine hits_initialRounds a hsmall horder 6 fun r hlt cube hcube => ?_
  have hlength := length_of_mem_initialRounds hcube
  exact (grown_initialRounds hsmall horder (by omega) cube hcube).fits hsmall (by omega)

end Runs

/-- The first task runs into its timeout and is split; the second one is counted. -/
def splitThenCounted : List Action :=
  [firstSplits, [.getTask workerA], List.replicate 6 (.handler 2 .go), [.submitResult (answer 2 "2")],
    List.replicate 6 (.handler 3 .go)].flatten

theorem System.exactly_once_sevenVars :
    ∃ s : System, Reaches System.step System.ParsesAt sevenVarsInit s ∧ s.solve.loaded = true ∧
      s.server.timeouts = 1 ∧ s.server.history.counted.map (fun e => (e.1, e.2.2)) = [(2, 2)] ∧
      (∀ a, s.regions a = 1) ∧ s.server.history.handedOut.Nodup ∧
      s.server.totalCount = (s.server.history.counted.map fun e => e.2.2).sum ∧
      (s.server.history.counted.map Prod.fst).Nodup ∧
      ∀ e ∈ s.server.history.counted, ∃ r ∈ s.server.history.accepted, r.taskId = e.1 ∧
        r.timedOut = false ∧ setString10 r.count = some e.2.2 := by
  have hrun : (exec (fun s a => if System.quietCheck s a then System.step s a else none)
      sevenVarsInit splitThenCounted).map (fun s => (s.solve.loaded, s.server.timeouts,
        s.server.history.counted.map fun e => (e.1, e.2.2))) = some (true, 1, [(2, 2)]) := by
    decide +kernel
  obtain ⟨s, hs, htriple⟩ := Option.map_eq_some_iff.mp hrun
  obtain ⟨hloaded, hpair⟩ := Prod.mk.inj htriple
  obtain ⟨htimeouts, hcounted⟩ := Prod.mk.inj hpair
  have hr : Reaches System.step System.ParsesAt sevenVarsInit s :=
    Reaches.of_exec_checked (fun _ _ h => (System.quiet_of_check h).1) hs
  have hroom : highestVar sevenVars.clauses +
      (6 + s.server.timeouts - variableCount sevenVars.clauses) ≤ 2147483647 := by
    rw [htimeouts]
    decide
  obtain ⟨hregions, hrest⟩ := System.exactly_once (by decide) (fun _ => List.Perm.refl _) hr hloaded
  exact ⟨s, hr, hloaded, htimeouts, hcounted, hregions hroom, hrest⟩

/-- A clause with the last variable but one that the register holds. -/
def lastVar : CNFData :=
  { numVars := 2147483646, numClauses := 1, body := "2147483646 0\n", clauses := [[2147483646]] }

/-- **The initial cubes overlap.**  The second round branches on the last variable of the register, and the
four rounds after it on the least value of the register, which is its own negation. -/
theorem System.overlaps :
    (∀ clause ∈ lastVar.clauses, ∀ lit ∈ clause, lit ≠ 0 ∧ InInt32 (-lit) ∧ InInt32 (lit + 1)) ∧
      ∃ s : System, Reaches System.step System.ParsesAt (.init defaultConfig .new lastVar
          (initialCubes fun _ => freqTable lastVar.clauses)) s ∧
        s.solve.loaded = true ∧ s.regions (fun _ => false) = 16 := by
  refine ⟨by decide, ?_⟩
  obtain ⟨s, hr, hwait⟩ := System.init_loads System.orderly_solve defaultConfig .new lastVar
    (initialCubes fun _ => freqTable lastVar.clauses) (by decide)
  have hloaded : s.solve.loaded = true := by rw [hwait]; rfl
  refine ⟨s, hr.mono fun _ _ hg => hg.1, hloaded, ?_⟩
  rw [System.regions_eq _ (by decide) hr hloaded]
  decide

end HydraSAT.Master
