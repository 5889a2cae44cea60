import HydraSAT.Master.CNFParser
import HydraSAT.Worker.Solve

/-!
# The formula of a task

What a worker writes to ganak, from the file over the payload to the text.  The lines that the master
keeps stand between a new header and one clause for each literal of the cube.

* `Restricted`: the text, as a well-formed one;
* `formula_reads`: read by the grammar it is the formula of the file and the literals of the cube.
-/

namespace HydraSAT.Worker

open HydraSAT.Lib HydraSAT.Master

/-! ### Texts of integers -/

theorem toList_toString (z : ℤ) : (toString z).toList = intText z := by
  rw [Int.toString_eq_repr, Int.repr_eq_if, intText]
  by_cases hz : z < 0
  · rw [if_pos hz, if_neg (by omega), String.toList_append, Nat.toList_repr]
    have habs : (-z).toNat = z.natAbs := by omega
    rw [habs]
    rfl
  · rw [if_neg hz, if_pos (by omega), Nat.toList_repr]
    have habs : z.toNat = z.natAbs := by omega
    rw [habs]

theorem not_isSpace_of_isDigit {c : Char} (h : isDigit c = true) : isSpace c = false := by
  by_contra hspace
  rw [isDigit_of_isSpace (Bool.not_eq_false _ ▸ hspace)] at h
  exact nomatch h

theorem isFree_of_integer {w : List Char} {v : ℤ} (h : integer w = some v) : IsFree isSpace w := by
  intro c hc
  rcases mem_integer h hc with rfl | rfl | hdigit
  · decide
  · decide
  · exact not_isSpace_of_isDigit hdigit

theorem words_integer {w : List Char} {v : ℤ} (h : integer w = some v) : words isSpace w = [w] :=
  words_of_free (integer_ne_nil h) (isFree_of_integer h)

theorem newline_integer {w : List Char} {v : ℤ} (h : integer w = some v) : '\n' ∉ w := fun hmem =>
  absurd (isFree_of_integer h '\n' hmem) (by decide)

/-! ### The lines of the text -/

/-- The header. -/
def headerLine (numVars numClauses : ℤ) : List Char :=
  ['p', ' ', 'c', 'n', 'f', ' '] ++ (intText numVars ++ ' ' :: intText numClauses)

/-- The clause of a literal. -/
def literalLine (lit : ℤ) : List Char := intText lit ++ [' ', '0']

/-- `"\n".join` of no lines is an empty line. -/
def orBlank (lines : List (List Char)) : List (List Char) := if lines = [] then [[]] else lines

theorem orBlank_ne_nil (lines : List (List Char)) : orBlank lines ≠ [] := by
  unfold orBlank
  split
  · exact List.cons_ne_nil _ _
  · assumption

theorem intercalate_orBlank (lines : List (List Char)) :
    ['\n'].intercalate (orBlank lines) = ['\n'].intercalate lines := by
  unfold orBlank
  split
  · rename_i hnil
    rw [hnil]
    rfl
  · rfl

theorem mem_orBlank {lines : List (List Char)} {line : List Char} (h : line ∈ orBlank lines) :
    line = [] ∨ line ∈ lines := by
  unfold orBlank at h
  split at h
  · exact .inl (List.mem_singleton.mp h)
  · exact .inr h

theorem flatMap_orBlank (lines : List (List Char)) :
    (orBlank lines).flatMap lineInts = lines.flatMap lineInts := by
  unfold orBlank
  split
  · rename_i hnil
    rw [hnil]
    rfl
  · rfl

theorem intercalate_append {xs ys : List (List Char)} (hxs : xs ≠ []) (hys : ys ≠ []) :
    ['\n'].intercalate (xs ++ ys) = ['\n'].intercalate xs ++ '\n' :: ['\n'].intercalate ys := by
  induction xs with
  | nil => exact absurd rfl hxs
  | cons x xs ih =>
      by_cases hnil : xs = []
      · rw [hnil, List.singleton_append, List.intercalate_cons_of_ne_nil hys, List.intercalate_singleton,
          List.append_assoc, List.singleton_append]
      · rw [List.cons_append, List.intercalate_cons_of_ne_nil (by simp [hnil]), ih hnil,
          List.intercalate_cons_of_ne_nil hnil, List.append_assoc, List.append_assoc, List.append_assoc]

theorem words_headerLine (numVars numClauses : ℤ) : words isSpace (headerLine numVars numClauses) =
    [['p'], ['c', 'n', 'f'], intText numVars, intText numClauses] := by
  have hvars := words_integer (integer_intText numVars)
  have hclauses := words_integer (integer_intText numClauses)
  have hblank : isSpace ' ' = true := by decide
  show words isSpace (['p'] ++ ' ' :: (['c', 'n', 'f'] ++ ' ' :: (intText numVars ++ ' ' ::
    intText numClauses))) = _
  rw [words_append hblank, words_append hblank, words_append hblank, hvars, hclauses]
  rfl

theorem words_literalLine (lit : ℤ) : words isSpace (literalLine lit) = [intText lit, ['0']] := by
  have hlit := words_integer (integer_intText lit)
  show words isSpace (intText lit ++ ' ' :: ['0']) = _
  rw [words_append (by decide), hlit]
  rfl

/-- A line of numerals is no comment. -/
theorem isComment_of_body {line : List Char} (h : IsBody line) : isComment line = false := by
  refine Bool.eq_false_iff.mpr fun hcomment => ?_
  obtain ⟨w, ws, hwords, hw⟩ := isComment_words hcomment
  obtain ⟨v, hv⟩ := h w (hwords ▸ List.mem_cons_self)
  obtain ⟨c, cs, rfl⟩ := List.exists_cons_of_ne_nil (integer_ne_nil hv)
  obtain ⟨hdigit, hplus, hminus⟩ := hw c rfl
  rcases mem_integer hv List.mem_cons_self with rfl | rfl | hc
  · exact hminus rfl
  · exact hplus rfl
  · rw [hdigit] at hc
    exact nomatch hc

theorem lineInts_of_body {line : List Char} (h : IsBody line) :
    lineInts line = (words isSpace line).filterMap integer :=
  if_neg (by simp [isComment_of_body h])

theorem isBody_literalLine (lit : ℤ) : IsBody (literalLine lit) := by
  intro w hw
  rw [words_literalLine] at hw
  rcases List.mem_cons.mp hw with rfl | hw
  · exact ⟨lit, integer_intText lit⟩
  · rw [List.mem_singleton.mp hw]
    exact ⟨0, by decide⟩

theorem lineInts_literalLine (lit : ℤ) : lineInts (literalLine lit) = [lit, 0] := by
  have hzero : integer ['0'] = some 0 := by decide
  rw [lineInts_of_body (isBody_literalLine lit), words_literalLine,
    List.filterMap_cons_some (integer_intText lit), List.filterMap_cons_some hzero]
  rfl

/-- **A line that is kept says what it said.** -/
theorem isBody_scanned {raw : List Char} (h : IsBody raw) :
    IsBody (scanned raw) ∧ lineInts (scanned raw) = lineInts raw := by
  have hwords := (isPlain_of_body h).words_scanned.1
  have hbody : IsBody (scanned raw) := fun w hw => h w (hwords ▸ hw)
  exact ⟨hbody, by rw [lineInts_of_body hbody, lineInts_of_body h, hwords]⟩

/-- The lines that are kept. -/
theorem mem_bodyLines {d : DimacsText} {line : List Char} (h : line ∈ bodyLines d) :
    IsBody line ∧ ∃ raw ∈ d.after, ∀ c ∈ line, c ∈ raw := by
  obtain ⟨hline, hkept⟩ := List.mem_filter.mp h
  obtain ⟨raw, hraw, rfl⟩ := List.mem_map.mp hline
  rcases (scanned_after (d.body raw hraw)).2 with ⟨hno, -⟩ | ⟨-, -, hbody⟩
  · rw [hno] at hkept
    exact nomatch hkept
  · exact ⟨(isBody_scanned hbody).1, raw, hraw, fun c hc => mem_of_mem_scanned hc⟩

/-- **Dropping lines drops no number.** -/
theorem flatMap_kept {lines : List (List Char)}
    (h : ∀ line ∈ lines, isComment line = true ∨ IsBody line) :
    ((lines.map scanned).filter isKept).flatMap lineInts = lines.flatMap lineInts := by
  induction lines with
  | nil => rfl
  | cons line lines ih =>
      obtain ⟨hline, hlines⟩ := List.forall_mem_cons.mp h
      rw [List.map_cons, List.flatMap_cons]
      rcases (scanned_after hline).2 with ⟨hkept, hnil⟩ | ⟨hkept, -, hbody⟩
      · rw [List.filter_cons_of_neg (by simp [hkept]), ih hlines, hnil, List.nil_append]
      · rw [List.filter_cons_of_pos hkept, List.flatMap_cons, ih hlines, (isBody_scanned hbody).2]

/-! ### The text -/

/-- The lines behind the header. -/
def restrictedLines (d : DimacsText) (cube : Cube) : List (List Char) :=
  orBlank (bodyLines d) ++ (orBlank (cube.map literalLine) ++ [[]])

/-- Every line is blank, was kept, or is the clause of a literal. -/
theorem mem_restrictedLines {d : DimacsText} {cube : Cube} {line : List Char}
    (h : line ∈ restrictedLines d cube) :
    line = [] ∨ line ∈ bodyLines d ∨ ∃ lit, literalLine lit = line := by
  rcases List.mem_append.mp h with hline | hline
  · exact (mem_orBlank hline).imp id .inl
  · rcases List.mem_append.mp hline with hline | hline
    · rcases mem_orBlank hline with hnil | hline
      · exact .inl hnil
      · obtain ⟨lit, -, heq⟩ := List.mem_map.mp hline
        exact .inr (.inr ⟨lit, heq⟩)
    · exact .inl (List.mem_singleton.mp hline)

theorem newline_headerLine (numVars numClauses : ℤ) : '\n' ∉ headerLine numVars numClauses := by
  intro hmem
  rcases List.mem_append.mp hmem with hmem | hmem
  · exact absurd hmem (by decide)
  · rcases List.mem_append.mp hmem with hmem | hmem
    · exact newline_integer (integer_intText numVars) hmem
    · have htail := (List.mem_cons.mp hmem).resolve_left (by decide)
      exact newline_integer (integer_intText numClauses) htail

theorem newline_literalLine (lit : ℤ) : '\n' ∉ literalLine lit := by
  intro hmem
  rcases List.mem_append.mp hmem with hmem | hmem
  · exact newline_integer (integer_intText lit) hmem
  · exact absurd hmem (by decide)

theorem newline_restricted (d : DimacsText) (cube : Cube) (numClauses : ℤ) :
    ∀ line ∈ [] ++ headerLine d.nbVar numClauses :: restrictedLines d cube, '\n' ∉ line := by
  intro line hline
  rcases List.mem_cons.mp hline with rfl | hline
  · exact newline_headerLine _ _
  · rcases mem_restrictedLines hline with rfl | hkept | ⟨lit, rfl⟩
    · exact List.not_mem_nil
    · obtain ⟨-, raw, hraw, hsub⟩ := mem_bodyLines hkept
      have hfree := d.newline_free raw (List.mem_append_right _ (List.mem_cons_of_mem _ hraw))
      exact fun hmem => hfree (hsub _ hmem)
    · exact newline_literalLine lit

theorem heading_restricted (d : DimacsText) (cube : Cube) :
    ∃ v c, words isSpace (headerLine d.nbVar (d.clauses.length + cube.length)) =
        [['p'], ['c', 'n', 'f'], v, c] ∧ integer v = some (d.nbVar : ℤ) ∧
      integer c = some ((d.clauses ++ cube.map fun l => [l]).length : ℤ) := by
  refine ⟨_, _, words_headerLine _ _, integer_intText _, ?_⟩
  rw [integer_intText, List.length_append, List.length_map, Nat.cast_add]

theorem body_restricted (d : DimacsText) (cube : Cube) :
    ∀ line ∈ restrictedLines d cube, isComment line = true ∨ IsBody line := by
  intro line hline
  refine .inr ?_
  rcases mem_restrictedLines hline with rfl | hkept | ⟨lit, rfl⟩
  · exact fun w hw => absurd hw List.not_mem_nil
  · exact (mem_bodyLines hkept).1
  · exact isBody_literalLine lit

/-- **The numbers are those of the file and of the cube.** -/
theorem closed_restricted (d : DimacsText) (cube : Cube) :
    (restrictedLines d cube).flatMap lineInts =
      (d.clauses ++ cube.map fun l => [l]).flatMap (· ++ [0]) := by
  have hcubes : (cube.map literalLine).flatMap lineInts =
      (cube.map fun l => [l]).flatMap (· ++ [0]) := by
    rw [List.flatMap_map, List.flatMap_map]
    exact List.flatMap_congr fun l hl => lineInts_literalLine l
  rw [restrictedLines, List.flatMap_append, List.flatMap_append, flatMap_orBlank, flatMap_orBlank,
    bodyLines, flatMap_kept d.body, d.closed, hcubes, List.flatMap_append]
  show _ ++ (_ ++ []) = _
  rw [List.append_nil]

theorem literals_restricted (d : DimacsText) (cube : Cube)
    (hcube : ∀ l ∈ cube, l ≠ 0 ∧ l.natAbs ≤ d.nbVar) :
    ∀ c ∈ d.clauses ++ cube.map fun l => [l], ∀ l ∈ c, l ≠ 0 ∧ l.natAbs ≤ d.nbVar := by
  intro c hc l hl
  rcases List.mem_append.mp hc with hc | hc
  · exact d.literals c hc l hl
  · obtain ⟨l', hl', rfl⟩ := List.mem_map.mp hc
    rw [List.mem_singleton.mp hl]
    exact hcube l' hl'

theorem nothing_skipped : ∀ line ∈ ([] : List (List Char)),
    isComment line = true ∨ words isSpace line = [] := fun _ hline => absurd hline List.not_mem_nil

/-- **The text for a cube**, as a well-formed one. -/
def Restricted (d : DimacsText) (cube : Cube) (hcube : ∀ l ∈ cube, l ≠ 0 ∧ l.natAbs ≤ d.nbVar) :
    DimacsText where
  before := []
  header := headerLine d.nbVar (d.clauses.length + cube.length)
  after := restrictedLines d cube
  nbVar := d.nbVar
  clauses := d.clauses ++ cube.map fun l => [l]
  newline_free := newline_restricted d cube _
  skipped := nothing_skipped
  heading := heading_restricted d cube
  body := body_restricted d cube
  closed := closed_restricted d cube
  literals := literals_restricted d cube hcube

/-- **What the worker writes is the text.** -/
theorem toList_formula {d : DimacsText} {cube : Cube} (hcube : ∀ l ∈ cube, l ≠ 0 ∧ l.natAbs ≤ d.nbVar)
    (task : TaskPayload) (hvars : task.numVars = d.nbVar) (hclauses : task.numClauses = d.clauses.length)
    (hbody : task.formulaBody = String.ofList (['\n'].intercalate (bodyLines d)))
    (hliterals : task.literals = cube) : (formula task).toList = (Restricted d cube hcube).text := by
  have hlits : ("\n".intercalate (cube.map fun lit => toString lit ++ " 0")).toList =
      ['\n'].intercalate (cube.map literalLine) := by
    rw [String.toList_intercalate, List.map_map]
    congr 1
    refine List.map_congr_left fun l hl => ?_
    show (toString l ++ " 0").toList = literalLine l
    rw [String.toList_append, toList_toString]
    rfl
  have htext : (Restricted d cube hcube).text =
      headerLine d.nbVar (d.clauses.length + cube.length) ++ '\n' ::
        (['\n'].intercalate (bodyLines d) ++ '\n' ::
          (['\n'].intercalate (cube.map literalLine) ++ ['\n'])) := by
    show ['\n'].intercalate (_ :: (orBlank _ ++ (orBlank _ ++ [[]]))) = _
    rw [List.intercalate_cons_of_ne_nil (by simp), intercalate_append (orBlank_ne_nil _) (by simp),
      intercalate_append (orBlank_ne_nil _) (by simp), intercalate_orBlank, intercalate_orBlank,
      List.append_assoc]
    rfl
  rw [htext, formula, hliterals, hbody, hvars, hclauses]
  simp only [String.toList_append, hlits, String.toList_ofList, toList_toString]
  simp [headerLine, List.append_assoc]

/-- The text that a worker gets for the cube is the formula of the file with one unit clause for each
literal.  It is well formed, so its header counts its clauses, and by the grammar it says nothing else. -/
def ReadsBack (path : String) (d : DimacsText) (cube : Cube) : Prop :=
  ∃ data, ParseCNF path (some d.text) = .ok data ∧
    ∀ (tm : TaskManager) (id timeoutSec : ℤ), tm.cnfData = data →
      (∃ out : DimacsText,
        out.text = (formula { tm.payload id cube with timeoutSec := timeoutSec }).toList) ∧
      ∀ out : DimacsText,
        out.text = (formula { tm.payload id cube with timeoutSec := timeoutSec }).toList →
          out.nbVar = d.nbVar ∧ out.clauses = d.clauses ++ cube.map fun l => [l]

/-- **From the file to the solver.**  The counts of the header must fit an `int32`. -/
theorem formula_reads {path : String} (hpath : ['.', 'c', 'n', 'f'] <:+ path.toList) (d : DimacsText)
    (hheader : isHeader (scanned d.header) = true)
    (hshort : ∀ line ∈ d.lines, byteLength line < bufferSize) (hnbVar : d.nbVar ≤ 2147483647)
    (hlength : d.clauses.length ≤ 2147483647) (cube : Cube)
    (hcube : ∀ l ∈ cube, l ≠ 0 ∧ l.natAbs ≤ d.nbVar) : ReadsBack path d cube := by
  have hV : InInt32 d.nbVar := ⟨by omega, by omega⟩
  have hC : InInt32 d.clauses.length := ⟨by omega, by omega⟩
  refine ⟨_, ParseCNF_eq hpath d hshort hheader (d.inInt32 hnbVar), fun tm id timeoutSec htm => ?_⟩
  have hvars : tm.cnfData.numVars = d.nbVar := by
    rw [htm]
    exact if_pos hV
  have hclauses : tm.cnfData.numClauses = d.clauses.length := by
    rw [htm]
    exact if_pos hC
  have hbody : tm.cnfData.body = String.ofList (['\n'].intercalate (bodyLines d)) := by rw [htm]
  have htext := toList_formula hcube { tm.payload id cube with timeoutSec := timeoutSec } hvars hclauses
    hbody rfl
  exact ⟨⟨_, htext.symm⟩, fun out hout => DimacsText.unique (hout.trans htext)⟩

theorem body_twoLines : ∀ line ∈ [['1'], ['c'], ['-', '3', ' ', '0']],
    isComment line = true ∨ IsBody line := by
  have hfirst : IsBody ['1'] := fun w hw => Option.isSome_iff_exists.mp (by revert w; decide)
  have hlast : IsBody ['-', '3', ' ', '0'] := fun w hw =>
    Option.isSome_iff_exists.mp (by revert w; decide)
  have hcomment : isComment ['c'] = true := by decide
  simp [hfirst, hlast, hcomment]

/-- One clause on two lines, with a comment between them. -/
def twoLines : DimacsText where
  before := []
  header := ['p', ' ', 'c', 'n', 'f', ' ', '3', ' ', '1']
  after := [['1'], ['c'], ['-', '3', ' ', '0']]
  nbVar := 3
  clauses := [[1, -3]]
  newline_free := by decide
  skipped := nothing_skipped
  heading := ⟨['3'], ['1'], by decide, by decide, by decide⟩
  body := body_twoLines
  closed := by decide
  literals := by decide

theorem formula_reads_twoLines : ReadsBack "a.cnf" twoLines [-1] :=
  formula_reads (by decide +kernel) twoLines (by decide +kernel) (by decide +kernel) (by decide)
    (by decide) [-1] (by decide)

/-- A formula without clauses, as the text for a cube without literals has it. -/
def noClauses (n : ℕ) : DimacsText where
  before := []
  header := headerLine n 0
  after := []
  nbVar := n
  clauses := []
  newline_free := List.forall_mem_singleton.mpr (newline_headerLine n 0)
  skipped := nothing_skipped
  heading := ⟨intText n, intText 0, words_headerLine n 0, integer_intText n, integer_intText 0⟩
  body := fun _ hline => absurd hline List.not_mem_nil
  closed := rfl
  literals := fun _ hc => absurd hc List.not_mem_nil

/-- `2^31` variables are no `int32`: the master reads none. -/
def tooWide : DimacsText := noClauses 2147483648

theorem tooWide_lost : ¬ReadsBack "a.cnf" tooWide [] := by
  rintro ⟨data, hdata, hreads⟩
  rw [ParseCNF_eq (by decide +kernel) tooWide (by decide +kernel) (by decide +kernel)
    fun line hline => absurd hline List.not_mem_nil] at hdata
  have hdata := Except.ok.inj hdata
  have hvars : data.numVars = 0 := by
    rw [← hdata]
    rfl
  have hclauses : data.numClauses = 0 := by
    rw [← hdata]
    rfl
  have hbody : data.body = String.ofList [] := by
    rw [← hdata]
    rfl
  have hread := (hreads (.new data) 1 0 rfl).2
  have htext := toList_formula (d := noClauses 0)
    (fun l (hl : l ∈ ([] : Cube)) => absurd hl List.not_mem_nil)
    { (TaskManager.new data).payload 1 [] with timeoutSec := 0 }
    hvars hclauses hbody rfl
  have hnbVar := (hread _ htext.symm).1
  exact absurd hnbVar (by decide)

end HydraSAT.Worker
