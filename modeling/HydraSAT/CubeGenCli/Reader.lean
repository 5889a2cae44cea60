import HydraSAT.Lib.InputStream

/-!
# The reader of `cube_gen`

`parseCNF` of `cube_gen_cli.cpp`: line by line, every line that is neither a comment nor the header is
one clause, up to its first `0`.

* `parseCNF_eq`: the result for a well-formed text.
-/

namespace HydraSAT.CubeGenCli

open HydraSAT.Lib

/-- `Formula`. -/
structure Formula where
  nbVar : ℤ
  clauses : List Clause
  deriving DecidableEq

/-- `while (ss >> x && x != 0)`. -/
def readClause (line : List Char) : Clause := (allInts line).takeWhile (· ≠ 0)

/-- One turn of the loop.  `junk` is what the uninitialised `v` holds, for a header that is too short. -/
def readLine (junk : ℤ) (formula : Formula) (line : List Char) : Formula :=
  if line = [] ∨ line.head? = some 'c' then formula
  else if line.head? = some 'p' then { formula with nbVar := thirdInt junk line }
  else if readClause line = [] then formula
  else { formula with clauses := formula.clauses ++ [readClause line] }

/-- `parseCNF`; `file` is what stands in the file, if it can be opened. -/
def parseCNF (junk : ℤ) (path : String) (file : Option (List Char)) : Except String Formula :=
  match file with
  | none => .error ("Cannot open: " ++ path)
  | some text => .ok ((textLines text).foldl (readLine junk) ⟨0, []⟩)

/-! ### A well-formed text -/

variable {junk : ℤ} {line : List Char}

/-- A line behind the header. -/
theorem readLine_after (formula : Formula) (h : isComment line = true ∨ IsBody line)
    (hrange : ∀ l ∈ lineInts line, InInt32 l) : readLine junk formula line =
      { formula with clauses := formula.clauses ++ withLiterals [(lineInts line).takeWhile (· ≠ 0)] } := by
  have hclause : readClause line = (lineInts line).takeWhile (· ≠ 0) := by
    rw [readClause, allInts_line h hrange]
  unfold readLine
  by_cases hskip : line = [] ∨ line.head? = some 'c'
  · have hnil : lineInts line = [] := by
      rcases hskip with rfl | hc
      · rfl
      · rw [lineInts, if_pos (isComment_of_head hc)]
    rw [if_pos hskip, hnil]
    show formula = { formula with clauses := formula.clauses ++ [] }
    rw [List.append_nil]
  · rw [if_neg hskip, if_neg (head_ne_p h), hclause]
    by_cases hnil : (lineInts line).takeWhile (· ≠ 0) = []
    · rw [if_pos hnil, hnil]
      show formula = { formula with clauses := formula.clauses ++ [] }
      rw [List.append_nil]
    · rw [if_neg hnil, withLiterals_singleton hnil]

theorem foldl_after {lines : List (List Char)} (h : ∀ line ∈ lines, isComment line = true ∨ IsBody line)
    (hrange : ∀ line ∈ lines, ∀ l ∈ lineInts line, InInt32 l) (formula : Formula) :
    lines.foldl (readLine junk) formula =
      { formula with clauses := formula.clauses ++ lineClauses (lines.map lineInts) } := by
  induction lines generalizing formula with
  | nil =>
      show formula = { formula with clauses := formula.clauses ++ [] }
      rw [List.append_nil]
  | cons line lines ih =>
      obtain ⟨hline, hlines⟩ := List.forall_mem_cons.mp h
      obtain ⟨hlow, hlows⟩ := List.forall_mem_cons.mp hrange
      rw [List.foldl_cons, readLine_after formula hline hlow, ih hlines hlows, List.map_cons,
        lineClauses_cons, List.append_assoc]

/-- A line in front of the header. -/
theorem readLine_before (formula : Formula) (h : isComment line = true ∨ words isSpace line = []) :
    readLine junk formula line = formula := by
  obtain ⟨hafter, hnil⟩ := after_of_skipped h
  rw [readLine_after formula hafter fun l hl => absurd (hnil ▸ hl) List.not_mem_nil, hnil]
  show { formula with clauses := formula.clauses ++ [] } = formula
  rw [List.append_nil]

theorem foldl_before {lines : List (List Char)}
    (h : ∀ line ∈ lines, isComment line = true ∨ words isSpace line = []) (formula : Formula) :
    lines.foldl (readLine junk) formula = formula := by
  induction lines with
  | nil => rfl
  | cons line lines ih =>
      obtain ⟨hline, hlines⟩ := List.forall_mem_cons.mp h
      rw [List.foldl_cons, readLine_before formula hline]
      exact ih hlines

theorem readLine_header (d : DimacsText) (formula : Formula) : readLine junk formula d.header =
    { formula with
      nbVar :=
        if d.header.head? = some 'p' then if d.nbVar ≤ 2147483647 then (d.nbVar : ℤ) else 2147483647
        else formula.nbVar } := by
  obtain ⟨v, c, hwords, hv, -⟩ := d.heading
  have hcomment : ¬isComment d.header = true := fun h => skipped_ne_header d (.inl h)
  have hskip : ¬(d.header = [] ∨ d.header.head? = some 'c') := by
    rintro (hnil | hc)
    · rw [hnil] at hwords
      exact nomatch hwords
    · exact hcomment (isComment_of_head hc)
  rw [readLine, if_neg hskip]
  by_cases hp : d.header.head? = some 'p'
  · rw [if_pos hp, if_pos hp, thirdInt_words junk hwords hv]
  · have hclause : readClause d.header = [] := by
      rw [readClause, allInts_header]
      rfl
    rw [if_neg hp, if_pos hclause, if_neg hp]

/-- **The result for a well-formed text.** -/
theorem parseCNF_eq (path : String) (d : DimacsText)
    (hrange : ∀ line ∈ d.after, ∀ l ∈ lineInts line, InInt32 l) :
    parseCNF junk path (some d.text) = .ok
      { nbVar :=
          if d.header.head? = some 'p' then if d.nbVar ≤ 2147483647 then (d.nbVar : ℤ) else 2147483647
          else 0
        clauses := lineClauses (d.after.map lineInts) } := by
  have hempty : ∀ formula : Formula, readLine junk formula [] = formula := fun formula =>
    if_pos (.inl rfl)
  show Except.ok _ = _
  rw [foldl_textLines hempty, d.splitOn_text, DimacsText.lines, List.foldl_append,
    foldl_before d.skipped, List.foldl_cons, readLine_header, foldl_after d.body hrange]
  rfl

end HydraSAT.CubeGenCli
