import HydraSAT.Cluster.Origin
import HydraSAT.Master.Labels
import HydraSAT.Worker.Formula

/-!
# From the file to the count

The whole way: `main` parses the file and splits it, the workers fetch tasks over calls that may fail,
write them for ganak, read its output, and submit what they have read.

* `Honest`: what is asked of ganak;
* `Fleet.answer_of_lookup`: the cube of the task that a result answers is the one in the checkbook;
* `Fleet.totalCount_le_file`: whatever fails, the total does not exceed the number of models of the file;
* `Fleet.returns_file`: if no process fails, what `Solve` returns is that number.
-/

namespace HydraSAT.Cluster

open HydraSAT.Lib HydraSAT.Master HydraSAT.Worker

/-! ### The solver -/

/-- What is asked of ganak: what it reports for a well-formed text is the number of its models, and where
it reports nothing it has printed no count. -/
structure Honest (ganak : String → Option ℤ → GanakOutcome) : Prop where
  reported : ∀ text t stdout n, ganak text t = .exited stdout → Reports stdout n →
    ∀ out : DimacsText, out.text = text.toList → n = modelCount out.nbVar out.clauses []
  silent : ∀ text t stdout, ganak text t = .exited stdout → (∀ n, ¬Reports stdout n) →
    ∀ num, ¬Printed stdout num

/-- The result is what `_solve` makes of the task with an honest ganak. -/
def Solved (task : TaskPayload) (r : TaskResult) : Prop :=
  ∃ ganak killedEvent, Honest ganak ∧ solve r.workerId ganak killedEvent r.durationSec task = r

/-- And the process has printed a report if it has exited, unless it was killed. -/
def SolvedFully (task : TaskPayload) (r : TaskResult) : Prop :=
  ∃ ganak killedEvent, Honest ganak ∧ solve r.workerId ganak killedEvent r.durationSec task = r ∧
    (killedEvent = true ∨ ∀ stdout, ganak (formula task) (subprocessTimeout task) = .exited stdout →
      ∃ n, Reports stdout n)

theorem SolvedFully.solved {task : TaskPayload} {r : TaskResult} (h : SolvedFully task r) :
    Solved task r := by
  obtain ⟨ganak, killedEvent, hhonest, hr, -⟩ := h
  exact ⟨ganak, killedEvent, hhonest, hr⟩

theorem modelCount_units (n : ℕ) (f : List Clause) (cube : Cube) :
    modelCount n (f ++ cube.map fun l => [l]) [] = modelCount n f cube := by
  unfold modelCount holdsAll
  congr 2
  funext a
  simp [List.all_map, Function.comp_def]

/-- The task is a restriction of the file. -/
structure Restricts (d : DimacsText) (task : TaskPayload) : Prop where
  numVars : task.numVars = d.nbVar
  numClauses : task.numClauses = d.clauses.length
  formulaBody : task.formulaBody = String.ofList (['\n'].intercalate (bodyLines d))
  literals : ∀ l ∈ task.literals, l ≠ 0 ∧ l.natAbs ≤ d.nbVar

/-- An honest report on the text of a task is of the models of its cube. -/
theorem Honest.count {ganak : String → Option ℤ → GanakOutcome} (h : Honest ganak) {d : DimacsText}
    {task : TaskPayload} (htask : Restricts d task) {t : Option ℤ} {stdout : List Char} {n : ℕ}
    (hrun : ganak (formula task) t = .exited stdout) (hreports : Reports stdout n) :
    n = modelCount d.nbVar d.clauses task.literals := by
  have htext := toList_formula htask.literals task htask.numVars htask.numClauses htask.formulaBody rfl
  rw [h.reported _ _ _ _ hrun hreports _ htext.symm]
  exact modelCount_units d.nbVar d.clauses task.literals

/-- **A count that a worker submits does not exceed the models of the cube.** -/
theorem Solved.le {d : DimacsText} {task : TaskPayload} {r : TaskResult} (h : Solved task r)
    (htask : Restricts d task) (hto : r.timedOut = false) {v : ℤ} (hv : setString10 r.count = some v) :
    v ≤ (modelCount d.nbVar d.clauses task.literals : ℤ) := by
  obtain ⟨ganak, killedEvent, hhonest, hr⟩ := h
  rw [← hr] at hto hv
  unfold solve at hto hv
  cases hrun : ganak (formula task) (subprocessTimeout task) with
  | exited stdout =>
      rw [hrun] at hto hv
      cases killedEvent with
      | true => exact nomatch hto
      | false =>
          by_cases hreports : ∃ n, Reports stdout n
          · obtain ⟨n, hreports⟩ := hreports
            rw [← hhonest.count htask hrun hreports]
            exact le_of_eq (Option.some.inj (hv.symm.trans (setString10_reports hreports)))
          · have hsilent := hhonest.silent _ _ _ hrun (not_exists.mp hreports)
            have hzero : setString10 (parseGanakUnweightedCount stdout) = some 0 := by
              rw [parse_of_no_count hsilent]
              decide
            rw [Option.some.inj (hv.symm.trans hzero)]
            exact Int.natCast_nonneg _
  | expired =>
      rw [hrun] at hto
      exact nomatch hto

/-- **And it is their number if a process that exits has printed a report.** -/
theorem SolvedFully.count {d : DimacsText} {task : TaskPayload} {r : TaskResult}
    (h : SolvedFully task r) (htask : Restricts d task) (hto : r.timedOut = false) :
    setString10 r.count = some (modelCount d.nbVar d.clauses task.literals : ℤ) := by
  obtain ⟨ganak, killedEvent, hhonest, hr, hprinted⟩ := h
  have hsound := (solve_sound_iff r.workerId ganak killedEvent r.durationSec task).mpr hprinted
  unfold SolveSound at hsound
  rw [hr] at hsound
  obtain ⟨stdout, n, hrun, hreports, hread⟩ := hsound hto
  rw [hread, hhonest.count htask hrun hreports]

open Classical in
/-- A ganak that reports the number of models of every well-formed text, and does not end on others. -/
noncomputable def exactGanak (text : String) (_ : Option ℤ) : GanakOutcome :=
  if h : ∃ out : DimacsText, out.text = text.toList then
    .exited (renderLines (countReport (modelCount h.choose.nbVar h.choose.clauses [])).lines)
  else .expired

theorem exactGanak_eq {text : String} {out : DimacsText} (h : out.text = text.toList) (t : Option ℤ) :
    exactGanak text t =
      .exited (renderLines (countReport (modelCount out.nbVar out.clauses [])).lines) := by
  have hex : ∃ out : DimacsText, out.text = text.toList := ⟨out, h⟩
  obtain ⟨hvars, hclauses⟩ := DimacsText.unique (hex.choose_spec.trans h.symm)
  rw [exactGanak, dif_pos hex, hvars, hclauses]

theorem exactGanak_honest : Honest exactGanak := by
  refine ⟨fun text t stdout n hrun hreports out hout => ?_, fun text t stdout hrun hno => ?_⟩
  · rw [exactGanak_eq hout] at hrun
    obtain rfl := GanakOutcome.exited.inj hrun
    exact hreports.unique (Report.reports_text _)
  · unfold exactGanak at hrun
    split at hrun
    · obtain rfl := GanakOutcome.exited.inj hrun
      exact absurd (Report.reports_text _) (hno _)
    · cases hrun

/-- The number of models, written out, is what `_solve` makes of the task with such a ganak. -/
theorem solvedFully_of_count {d : DimacsText} {task : TaskPayload} {r : TaskResult}
    (htask : Restricts d task) (hid : r.taskId = task.taskId) (hto : r.timedOut = false)
    (hcount : r.count = String.ofList (Nat.toDigits 10 (modelCount d.nbVar d.clauses task.literals))) :
    SolvedFully task r := by
  have htext := toList_formula htask.literals task htask.numVars htask.numClauses htask.formulaBody rfl
  have hrun := exactGanak_eq htext.symm (subprocessTimeout task)
  have hmodels : modelCount (Restricted d task.literals htask.literals).nbVar
      (Restricted d task.literals htask.literals).clauses [] =
        modelCount d.nbVar d.clauses task.literals := modelCount_units _ _ _
  have hparse : parseGanakUnweightedCount (renderLines
      (countReport (modelCount d.nbVar d.clauses task.literals)).lines) = r.count := by
    rw [hcount]
    exact parse_countReport _
  refine ⟨exactGanak, false, exactGanak_honest, ?_, .inr fun stdout h => ?_⟩
  · rw [hmodels] at hrun
    rw [solve, hrun]
    obtain ⟨taskId, workerId, count, durationSec, timedOut⟩ := r
    simp only at hid hto hparse
    simp only [fromOutput, Bool.false_eq_true, if_false, hparse, hid, hto]
  · rw [hrun] at h
    obtain rfl := GanakOutcome.exited.inj h
    exact ⟨_, Report.reports_text _⟩

/-! ### The master of the fleet -/

section Runs

variable {guard : Fleet → Action → Prop} {cfg : HeuristicConfig} {wt : WorkerTracker} {cnf : CNFData}
  {cubes : List Cube} {idents : List WorkerIdentity} {s : Fleet}
  {Q : TaskPayload → TaskResult → Prop}

/-- **A result that is looked up is an answer for the cube that is found.** -/
theorem Fleet.answer_of_lookup
    (hr : Reaches Fleet.step guard (Fleet.init (.init cfg wt cnf cubes) idents) s)
    (hq : ∀ s act, guard s act → s.Answers Q act) {r : TaskResult} {entry : TaskEntry}
    (hmem : .submitResult (.remove r) ∈ s.system.handlers)
    (hl : s.system.server.taskManager.checkbook.lookup r.taskId = some entry) :
    ∃ task, Q task r ∧ task.literals = entry.cube ∧ task.Genuine cnf ∧
      s.system.Labels (task.taskId, task.literals) := by
  obtain ⟨task, ⟨hret, hne⟩, hid, hans⟩ := (Fleet.traced hr hq).submitted r hmem
  have hsys := Fleet.system_reachable hr
  have htasks : task ∈ (Handler.getTask (.returned (some task))).tasks := by
    show task ∈ if task.taskId = -1 then [] else [task]
    rw [if_neg hne]
    exact List.mem_cons_self
  have hlabel : s.system.Labels (task.taskId, task.literals) :=
    .inr (.inr ⟨_, hret, List.mem_map_of_mem (f := TaskPayload.label) htasks⟩)
  have hsame := (System.labelled hsys).agree _ (r.taskId, entry.cube) hlabel
    (.inl (.inl ⟨entry, hl, rfl⟩)) hid.symm
  exact ⟨task, hans, (Prod.mk.inj hsame).2, (System.genuine hsys).handlers _ hret task htasks, hlabel⟩

end Runs

/-! ### Cubes of declared variables -/

/-- A cube that is split has room for it. -/
def HasRoom (n : ℕ) (s : System) (act : Master.Action) : Prop :=
  ∀ i c r cube, act = .handler i c → s.handlers[i]? = some (.submitResult (.split r cube)) →
    SplitRoom n s.server.taskManager.cnfData.clauses cube

/-- A cube of the run, of declared variables. -/
structure Plain (n : ℕ) (clauses : List Clause) (cube : Cube) : Prop where
  reachable : SplitReachable clauses cube
  declared : ∀ l ∈ cube, Declared n l

section Cubes

variable {n : ℕ} {clauses : List Clause} {cube : Cube} {entries : List (ℤ × ℕ)}

theorem Plain.split (hn : n ≤ 2147483647) (hwf : WellFormed n clauses) (h : Plain n clauses cube)
    (hroom : SplitRoom n clauses cube) (horder : MapOrder clauses entries) {child : Cube}
    (hchild : child ∈ splitCubeSmart cube entries) : Plain n clauses child := by
  refine ⟨.split h.reachable horder hchild, fun l hl => ?_⟩
  obtain ⟨hlow, hhigh, -⟩ := hroom.branchVar hn hwf (h.reachable.cubeOk hn hwf) horder
  have hbranch : Declared n (branchVar cube entries) := ⟨by omega, by omega⟩
  rw [splitCubeSmart, int32_neg ⟨by omega, by omega⟩ (by omega)] at hchild
  rcases List.mem_cons.mp hchild with rfl | hchild
  · exact (List.mem_append.mp hl).elim (h.declared l) fun hl => List.mem_singleton.mp hl ▸ hbranch
  · rw [List.mem_singleton.mp hchild] at hl
    exact (List.mem_append.mp hl).elim (h.declared l) fun hl => List.mem_singleton.mp hl ▸ hbranch.neg

theorem plain_initialRounds {order : ℕ → List (ℤ × ℕ)} (hn : n ≤ 2147483647)
    (hwf : WellFormed n clauses) (horder : ∀ k, MapOrder clauses (order k)) (r : ℕ)
    (hrounds : ∀ q < r, ∀ cube ∈ initialRounds order q, SplitRoom n clauses cube) :
    ∀ cube ∈ initialRounds order r, Plain n clauses cube := by
  induction r with
  | zero =>
      intro cube hcube
      rw [List.mem_singleton.mp hcube]
      exact ⟨.root, fun _ hl => absurd hl List.not_mem_nil⟩
  | succ r ih =>
      intro child hchild
      obtain ⟨⟨cube, k⟩, hmem, hchild⟩ := List.mem_flatMap.mp hchild
      have hcube := List.fst_mem_of_mem_zipIdx hmem
      exact (ih (fun q hq => hrounds q (Nat.lt_succ_of_lt hq)) cube hcube).split hn hwf
        (hrounds r (Nat.lt_succ_self r) cube hcube) (horder k) hchild

end Cubes

/-! ### The file -/

/-- The file is read as it is meant: the header is recognised, the lines fit the buffer, and the counts
of the header fit an `int32`. -/
structure Readable (path : String) (d : DimacsText) : Prop where
  suffix : ['.', 'c', 'n', 'f'] <:+ path.toList
  header : isHeader (scanned d.header) = true
  short : ∀ line ∈ d.lines, byteLength line < bufferSize
  nbVar : d.nbVar ≤ 2147483647
  length : d.clauses.length ≤ 2147483647

/-- Whatever the layout, every literal of a line is one of the formula. -/
theorem wellFormed_lineClauses (d : DimacsText) :
    WellFormed d.nbVar (lineClauses (d.after.map lineInts)) := by
  intro clause hclause lit hlit
  obtain ⟨line, hline, rfl⟩ := List.mem_map.mp (List.mem_filter.mp hclause).1
  obtain ⟨raw, hraw, rfl⟩ := List.mem_map.mp hline
  have hne : lit ≠ 0 := by simpa using List.mem_takeWhile_imp hlit
  have hmem : lit ∈ d.after.flatMap lineInts :=
    List.mem_flatMap.mpr ⟨raw, hraw, (List.takeWhile_prefix _).subset hlit⟩
  rw [d.closed] at hmem
  obtain ⟨c, hc, hlc⟩ := List.mem_flatMap.mp hmem
  rcases List.mem_append.mp hlc with hlc | hlc
  · obtain ⟨hpos, hle⟩ := d.literals c hc lit hlc
    exact ⟨Int.natAbs_pos.mpr hpos, hle⟩
  · exact absurd (List.mem_singleton.mp hlc) hne

section File

variable {path : String} {d : DimacsText} {data : CNFData}

theorem Readable.data_eq (h : Readable path d) (hdata : ParseCNF path (some d.text) = .ok data) :
    data =
      { numVars := d.nbVar
        numClauses := d.clauses.length
        body := String.ofList (['\n'].intercalate (bodyLines d))
        clauses := lineClauses (d.after.map lineInts) } := by
  have hV : InInt32 d.nbVar := ⟨by omega, Int.ofNat_le.mpr h.nbVar⟩
  have hC : InInt32 d.clauses.length := ⟨by omega, Int.ofNat_le.mpr h.length⟩
  rw [ParseCNF_eq h.suffix d h.short h.header (d.inInt32 h.nbVar), if_pos hV, if_pos hC] at hdata
  exact (Except.ok.inj hdata).symm

theorem Readable.wellFormed (h : Readable path d) (hdata : ParseCNF path (some d.text) = .ok data) :
    WellFormed d.nbVar data.clauses := by
  rw [h.data_eq hdata]
  exact wellFormed_lineClauses d

/-- A genuine payload with declared literals restricts the file. -/
theorem Readable.restricts (h : Readable path d) (hdata : ParseCNF path (some d.text) = .ok data)
    {task : TaskPayload} (htask : task.Genuine data) (hplain : Plain d.nbVar data.clauses task.literals) :
    Restricts d task := by
  have heq := h.data_eq hdata
  refine ⟨htask.numVars.trans ?_, htask.numClauses.trans ?_, htask.formulaBody.trans ?_, fun l hl => ?_⟩
  · rw [heq]
  · rw [heq]
  · rw [heq]
  · obtain ⟨hpos, hle⟩ := hplain.declared l hl
    exact ⟨Int.natAbs_pos.mp hpos, hle⟩

/-! ### The count -/

/-- What a handler is about to do satisfies `g`. -/
def Fleet.At (g : System → Master.Action → Prop) (s : Fleet) (act : Action) : Prop :=
  ∀ i c, act = .handler i c → g s.system (.handler i c)

variable {guard : Fleet → Action → Prop} {cfg : HeuristicConfig} {wt : WorkerTracker}
  {order : ℕ → List (ℤ × ℕ)} {idents : List WorkerIdentity} {s : Fleet}
  {Q : TaskPayload → TaskResult → Prop}

/-- **What is looked up is the answer for a restriction of the file.** -/
theorem Fleet.restricts_of_lookup (hread : Readable path d)
    (hdata : ParseCNF path (some d.text) = .ok data) (horder : ∀ k, MapOrder data.clauses (order k))
    (hrounds : ∀ r < 6, ∀ cube ∈ initialRounds order r, SplitRoom d.nbVar data.clauses cube)
    (hr : Reaches Fleet.step guard (Fleet.init (.init cfg wt data (initialCubes order)) idents) s)
    (hq : ∀ s act, guard s act → s.Answers Q act)
    (hroom : ∀ s act, guard s act → s.At (HasRoom d.nbVar) act) {r : TaskResult} {entry : TaskEntry}
    (hmem : .submitResult (.remove r) ∈ s.system.handlers)
    (hl : s.system.server.taskManager.checkbook.lookup r.taskId = some entry) :
    ∃ task, Q task r ∧ task.literals = entry.cube ∧ Restricts d task := by
  have hwf := hread.wellFormed hdata
  obtain ⟨task, hans, hcube, hgenuine, hlabel⟩ := Fleet.answer_of_lookup hr hq hmem hl
  have hsys := Fleet.system_reaches (g := HasRoom d.nbVar) hr
    (fun t act hfree i c _ _ hact _ => absurd hact (hfree i c))
    fun s i c _ hg => hroom s _ hg i c rfl
  have hplain := System.labels_all hsys (fun t ht => System.allCubes ht
    (plain_initialRounds hread.nbVar hwf horder 6 hrounds)
    fun t i c r cube entries hg hi hcnf hcube hvisit child hchild =>
      hcube.split hread.nbVar hwf (hcnf ▸ hg i c r cube rfl hi) hvisit hchild) _ hlabel
  exact ⟨task, hans, hcube, hread.restricts hdata hgenuine hplain⟩

/-- **A lower bound at all times.**  Whatever calls fail, workers exit, processes crash or tasks time out:
the total and the models of the outstanding cubes do not exceed the number of models of the file. -/
theorem Fleet.totalCount_le_file (hread : Readable path d)
    (hdata : ParseCNF path (some d.text) = .ok data) (horder : ∀ k, MapOrder data.clauses (order k))
    (hrounds : ∀ r < 6, ∀ cube ∈ initialRounds order r, SplitRoom d.nbVar data.clauses cube)
    (hr : Reaches Fleet.step (fun s act => s.Answers Solved act ∧ s.At (HasRoom d.nbVar) act)
      (Fleet.init (.init cfg wt data (initialCubes order)) idents) s) :
    s.system.server.totalCount +
        (weigh (modelCount d.nbVar d.clauses) s.system.server.taskManager.outstanding : ℤ) ≤
      (modelCount d.nbVar d.clauses [] : ℤ) := by
  have hsys : Reaches System.step (System.ModestAt d.nbVar d.clauses)
      (.init cfg wt data (initialCubes order)) s.system := by
    refine Fleet.system_reaches hr (fun t act hfree i c r entry hact _ => absurd hact (hfree i c)) ?_
    intro s i c hr _ i' c' r entry hact hi hl hto v hv
    obtain ⟨rfl, rfl⟩ := Master.Action.handler.inj hact
    obtain ⟨task, hans, hcube, hrestricts⟩ := Fleet.restricts_of_lookup hread hdata horder hrounds hr
      (fun _ _ hg => hg.1) (fun _ _ hg => hg.2) (List.mem_of_getElem? hi) hl
    rw [← hcube]
    exact hans.le hrestricts hto hv
  exact System.totalCount_le_models hread.nbVar (hread.wellFormed hdata) horder hsys

/-- **The count of the file.**  If no process fails on its own, completion is announced while nothing is
on its way, and there are variables to branch on, then what `Solve` returns is the number of models of
the file, whatever calls fail. -/
theorem Fleet.returns_file {count : ℤ} (hread : Readable path d)
    (hdata : ParseCNF path (some d.text) = .ok data) (horder : ∀ k, MapOrder data.clauses (order k))
    (hrounds : ∀ r < 6, ∀ cube ∈ initialRounds order r, SplitRoom d.nbVar data.clauses cube)
    (hr : Reaches Fleet.step (fun s act => s.Answers SolvedFully act ∧ s.At (HasRoom d.nbVar) act ∧
        s.At System.QuietAt act) (Fleet.init (.init cfg wt data (initialCubes order)) idents) s)
    (hret : s.system.solve = .returned count) : count = (modelCount d.nbVar d.clauses [] : ℤ) := by
  have hanswer : ∀ (s : Fleet) (i : ℕ) (r : TaskResult) (entry : TaskEntry),
      Reaches Fleet.step (fun s act => s.Answers SolvedFully act ∧ s.At (HasRoom d.nbVar) act ∧
        s.At System.QuietAt act) (Fleet.init (.init cfg wt data (initialCubes order)) idents) s →
      s.system.handlers[i]? = some (.submitResult (.remove r)) →
      s.system.server.taskManager.checkbook.lookup r.taskId = some entry → r.timedOut = false →
        setString10 r.count = some (modelCount d.nbVar d.clauses entry.cube : ℤ) := by
    intro s i r entry hr hi hl hto
    obtain ⟨task, hans, hcube, hrestricts⟩ := Fleet.restricts_of_lookup hread hdata horder hrounds hr
      (fun _ _ hg => hg.1) (fun _ _ hg => hg.2.1) (List.mem_of_getElem? hi) hl
    rw [← hcube]
    exact hans.count hrestricts hto
  have hsys : Reaches System.step (System.Faithful d.nbVar d.clauses)
      (.init cfg wt data (initialCubes order)) s.system := by
    refine Fleet.system_reaches hr (fun t act hfree => ?_) fun s i c hr hg => ?_
    · exact ⟨⟨fun i c _ hact _ => absurd hact (hfree i c),
        fun i c _ _ hact _ => absurd hact (hfree i c)⟩, fun i c _ hact _ => absurd hact (hfree i c),
        fun i c _ _ hact _ => absurd hact (hfree i c)⟩
    · refine ⟨⟨fun i' c' r hact hi hmem hto => ?_, fun i' c' r entry hact hi hl hto v hv => ?_⟩,
        hg.2.2 i c rfl, fun i' c' r cube hact hi => .inl (hg.2.1 i c rfl i' c' r cube hact hi)⟩
      · obtain ⟨entry, hl⟩ := Option.isSome_iff_exists.mp (AList.lookup_isSome.mpr hmem)
        rw [hanswer s i' r entry hr hi hl hto]
        rfl
      · exact Option.some.inj (hv.symm.trans (hanswer s i' r entry hr hi hl hto))
  exact System.returns_models hread.nbVar (hread.wellFormed hdata) horder
    (fun r hlt cube hcube => .inl (hrounds r hlt cube hcube)) hsys hret

end File

/-! ### One file -/

/-- The clause. -/
def sevenLine : List Char :=
  ['1', ' ', '2', ' ', '3', ' ', '4', ' ', '5', ' ', '6', ' ', '7', ' ', '0']

theorem body_sevenFile : ∀ line ∈ [sevenLine], isComment line = true ∨ IsBody line := by
  refine List.forall_mem_singleton.mpr (.inr fun w hw => Option.isSome_iff_exists.mp ?_)
  revert w
  decide

/-- Seven variables and one clause. -/
def sevenFile : DimacsText where
  before := []
  header := ['p', ' ', 'c', 'n', 'f', ' ', '7', ' ', '1']
  after := [sevenLine]
  nbVar := 7
  clauses := [[1, 2, 3, 4, 5, 6, 7]]
  newline_free := by decide
  skipped := nothing_skipped
  heading := ⟨['7'], ['1'], by decide, by decide, by decide⟩
  body := body_sevenFile
  closed := by decide
  literals := by decide

/-- What the master reads in it. -/
def sevenData : CNFData :=
  { numVars := 7, numClauses := 1, body := "1 2 3 4 5 6 7 0", clauses := [[1, 2, 3, 4, 5, 6, 7]] }

theorem readable_sevenFile : Readable "a.cnf" sevenFile :=
  ⟨by decide +kernel, by decide +kernel, by decide +kernel, by decide, by decide⟩

theorem parse_sevenFile : ParseCNF "a.cnf" (some sevenFile.text) = .ok sevenData := by
  rw [ParseCNF_eq readable_sevenFile.suffix sevenFile readable_sevenFile.short readable_sevenFile.header
    (sevenFile.inInt32 readable_sevenFile.nbVar)]
  rfl

/-- The master and one worker, at the start. -/
def sevenFileInit : Fleet :=
  .init (.init defaultConfig .new sevenData (initialCubes fun _ => freqTable sevenData.clauses)) [workerA]

/-- The guards of `Fleet.returns_file` for this file, evaluated for runs without timeouts. -/
def Fleet.sevenCheck (s : Fleet) : Action → Bool
  | .worker j (.answer count _ timedOut) =>
      match s.workers[j]? with
      | some (_, .solving task) =>
          !timedOut && task.numVars == 7 && task.numClauses == 1 && task.formulaBody == sevenData.body &&
            (task.literals.all fun l => decide (l ≠ 0 ∧ l.natAbs ≤ 7)) &&
            count == String.ofList (Nat.toDigits 10 (modelCount 7 sevenData.clauses task.literals))
      | _ => true
  | .handler i _ =>
      match s.system.handlers[i]? with
      | some (.submitResult (.readActive _)) =>
          !s.system.server.taskManager.isEmptyActive || !s.system.solve.enqueues &&
            s.system.handlers.all (fun h => !h.inWindow) &&
            decide (s.system.server.taskManager.checkbook.keys.length < 4294967296)
      | some (.submitResult (.split _ _)) => false
      | _ => true
  | _ => true

theorem Fleet.guards_of_check {s : Fleet} {act : Action} (h : s.sevenCheck act = true) :
    s.Answers SolvedFully act ∧ s.At (HasRoom 7) act ∧ s.At System.QuietAt act := by
  refine ⟨fun j count durationSec timedOut ident task hact hj => ?_,
    fun i c hact i' c' r cube heq hi => ?_,
    fun i c hact i' c' r heq hi hidle => ?_⟩
  · subst hact
    simp only [sevenCheck, hj, Bool.and_eq_true, Bool.not_eq_true', beq_iff_eq, List.all_eq_true,
      decide_eq_true_eq] at h
    obtain ⟨⟨⟨⟨⟨hto, hvars⟩, hclauses⟩, hbody⟩, hlits⟩, hcount⟩ := h
    have hrestricts : Restricts sevenFile task := by
      refine ⟨hvars, hclauses, ?_, hlits⟩
      rw [hbody, readable_sevenFile.data_eq parse_sevenFile]
    exact solvedFully_of_count hrestricts rfl hto hcount
  · obtain ⟨rfl, rfl⟩ := Master.Action.handler.inj heq
    subst hact
    simp [sevenCheck, hi] at h
  · obtain ⟨rfl, rfl⟩ := Master.Action.handler.inj heq
    subst hact
    simpa [sevenCheck, hi, hidle, and_assoc] using h

theorem sevenData_room : ∀ r < 6, ∀ cube ∈ initialRounds (fun _ => freqTable sevenData.clauses) r,
    SplitRoom 7 sevenData.clauses cube := by
  have hfree : ∀ r < 6, ∀ cube ∈ initialRounds (fun _ => freqTable sevenData.clauses) r,
      ∀ l ∈ cube, l.natAbs ≠ 1 := by decide
  refine fun r hlt cube hcube => .inl ⟨_, List.mem_cons_self, 1, List.mem_cons_self, ?_⟩
  rintro ⟨l, hl, habs⟩
  exact hfree r hlt cube hcube l hl habs

/-- The worker loses a request, fetches the task numbered `k`, solves it and submits the count. -/
def oneTask (k : ℕ) (count : String) : List Action :=
  [[.worker 0 .rpcError, .worker 0 .go, .worker 0 .go], List.replicate 6 (.handler (2 * k) .go),
    [.worker 0 .go, .worker 0 (.answer count 0 false), .worker 0 .go],
    List.replicate 6 (.handler (2 * k + 1) .go)].flatten

theorem Fleet.totalCount_le_file_oneTask : ∃ s : Fleet, s.system.server.totalCount = 2 ∧
    s.system.server.totalCount +
        (weigh (modelCount 7 sevenFile.clauses) s.system.server.taskManager.outstanding : ℤ) ≤
      (modelCount 7 sevenFile.clauses [] : ℤ) := by
  have hrun : (exec (fun s a => if Fleet.sevenCheck s a then Fleet.step s a else none) sevenFileInit
      (List.replicate 10 .solve ++ oneTask 0 "2")).map (fun s => s.system.server.totalCount) = some 2 := by
    decide +kernel
  obtain ⟨s, hs, htotal⟩ := Option.map_eq_some_iff.mp hrun
  have hr : Reaches Fleet.step (fun s act => s.Answers Solved act ∧ s.At (HasRoom 7) act)
      sevenFileInit s :=
    Reaches.of_exec_checked (fun s a h => ⟨fun j count durationSec timedOut ident task hact hj =>
      ((Fleet.guards_of_check h).1 j count durationSec timedOut ident task hact hj).solved,
        (Fleet.guards_of_check h).2.1⟩) hs
  exact ⟨s, htotal, Fleet.totalCount_le_file (d := sevenFile) readable_sevenFile parse_sevenFile
    (fun _ => List.Perm.refl _) sevenData_room hr⟩

/-- All tasks, one after the other. -/
def allTasks (counts : List String) : List Action :=
  List.replicate (4 * counts.length + 3) .solve ++ counts.zipIdx.flatMap (fun p =>
    oneTask p.2 p.1 ++ if p.2 + 1 = counts.length then [] else [.worker 0 .go]) ++
      List.replicate 2 (.handler (2 * counts.length - 1) .go) ++ List.replicate 2 .solve

theorem Fleet.returns_file_allTasks : ∃ s : Fleet, s.system.solve = .returned 127 ∧
    (127 : ℤ) = (modelCount 7 sevenFile.clauses [] : ℤ) := by
  have hrun : (exec (fun s a => if Fleet.sevenCheck s a then Fleet.step s a else none) sevenFileInit
      (allTasks (List.replicate 63 "2" ++ ["1"]))).map
        (fun s => s.system.solve.result) = some (some 127) := by
    decide +kernel
  obtain ⟨s, hs, hret⟩ := Option.map_eq_some_iff.mp hrun
  have hcount := Solve.eq_of_result hret
  exact ⟨s, hcount, Fleet.returns_file (d := sevenFile) readable_sevenFile parse_sevenFile
    (fun _ => List.Perm.refl _) sevenData_room
    (Reaches.of_exec_checked (fun _ _ => Fleet.guards_of_check) hs) hcount⟩

end HydraSAT.Cluster
