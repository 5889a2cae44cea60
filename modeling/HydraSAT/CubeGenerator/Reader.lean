import HydraSAT.Lib.InputStream

/-!
# The reader of `cube-cli`

`parseDIMACS` of `main.cpp`: the lines up to the header, and behind it integers straight from the stream.
A clause that is not closed at the end counts.

* `parseDIMACS_eq`: the result for a well-formed text.
-/

namespace HydraSAT.CubeGenerator

open HydraSAT.Lib

/-- What `parseDIMACS` hands to the constructor of `WeightedCNF`; every weight is `1`. -/
structure WeightedCNF where
  nbVar : ℤ
  clauses : List Clause
  deriving DecidableEq

/-- The loop that looks for the header: `nbVar`, and the lines behind the header. -/
def readHeader : List (List Char) → ℤ × List (List Char)
  | [] => (0, [])
  | line :: lines =>
      if line = [] ∨ line.head? = some 'c' then readHeader lines
      else if line.head? = some 'p' then (thirdInt 0 line, lines)
      else readHeader lines

/-- The loop over the literals, with the clauses it has and the one that is open. -/
def readClauses (clauses : List Clause) (clause : Clause) : List ℤ → List Clause
  | [] => if clause = [] then clauses else clauses ++ [clause]
  | lit :: lits =>
      if lit = 0 then readClauses (clauses ++ [clause]) [] lits
      else readClauses clauses (clause ++ [lit]) lits

/-- `parseDIMACS`.  The weights are a vector of `2 * (nbVar + 1)` entries: there is no formula if that is
no `int`, which is undefined behaviour, or negative.  `m_nbVar` is unsigned. -/
def parseDIMACS (text : List Char) : Except String WeightedCNF :=
  if (readHeader (textLines text)).1 = 0 then .error "No 'p cnf' header found"
  else if 0 ≤ 2 * ((readHeader (textLines text)).1 + 1) ∧
      2 * ((readHeader (textLines text)).1 + 1) ≤ maxInt32 then
    .ok
      { nbVar := (readHeader (textLines text)).1 % 4294967296
        clauses := readClauses [] [] (allInts (['\n'].intercalate (readHeader (textLines text)).2)) }
  else .error "cannot create std::vector larger than max_size()"

theorem readClauses_eq (clauses : List Clause) (clause : Clause) (lits : List ℤ) :
    readClauses clauses clause lits = clauses ++ clausesOf clause lits := by
  induction lits generalizing clauses clause with
  | nil =>
      rw [readClauses, clausesOf]
      by_cases hclause : clause = []
      · rw [if_pos hclause, if_pos hclause, List.append_nil]
      · rw [if_neg hclause, if_neg hclause]
  | cons lit lits ih =>
      rw [readClauses, clausesOf]
      by_cases hlit : lit = 0
      · rw [if_pos hlit, if_pos hlit, ih, List.append_assoc, List.singleton_append]
      · rw [if_neg hlit, if_neg hlit, ih]

/-! ### The header -/

/-- An empty line at the end makes no difference. -/
theorem readHeader_snoc (lines : List (List Char)) :
    (readHeader (lines ++ [[]])).1 = (readHeader lines).1 ∧
      (readHeader (lines ++ [[]])).2.flatMap (words isSpace) =
        (readHeader lines).2.flatMap (words isSpace) := by
  induction lines with
  | nil => exact ⟨rfl, rfl⟩
  | cons line lines ih =>
      rw [List.cons_append, readHeader, readHeader]
      by_cases hskip : line = [] ∨ line.head? = some 'c'
      · rw [if_pos hskip, if_pos hskip]
        exact ih
      · rw [if_neg hskip, if_neg hskip]
        by_cases hp : line.head? = some 'p'
        · rw [if_pos hp, if_pos hp]
          refine ⟨rfl, ?_⟩
          rw [List.flatMap_append]
          exact List.append_nil _
        · rw [if_neg hp, if_neg hp]
          exact ih

theorem readHeader_textLines (text : List Char) :
    (readHeader (textLines text)).1 = (readHeader (text.splitOn '\n')).1 ∧
      (readHeader (textLines text)).2.flatMap (words isSpace) =
        (readHeader (text.splitOn '\n')).2.flatMap (words isSpace) := by
  rcases textLines_cases text with h | h
  · rw [h]
    exact ⟨rfl, rfl⟩
  · rw [h]
    exact ⟨(readHeader_snoc _).1.symm, (readHeader_snoc _).2.symm⟩

/-- Lines that are no header are passed over. -/
theorem readHeader_append {lines rest : List (List Char)} (h : ∀ line ∈ lines, line.head? ≠ some 'p') :
    readHeader (lines ++ rest) = readHeader rest := by
  induction lines with
  | nil => rfl
  | cons line lines ih =>
      obtain ⟨hline, hlines⟩ := List.forall_mem_cons.mp h
      rw [List.cons_append, readHeader, if_neg hline]
      split
      · exact ih hlines
      · exact ih hlines

theorem readHeader_lines (d : DimacsText) : readHeader d.lines =
    if d.header.head? = some 'p' then
      (if d.nbVar ≤ 2147483647 then (d.nbVar : ℤ) else 2147483647, d.after)
    else (0, []) := by
  have hbefore : ∀ line ∈ d.before, line.head? ≠ some 'p' := fun line hline =>
    head_ne_p (after_of_skipped (d.skipped line hline)).1
  have hafter : ∀ line ∈ d.after, line.head? ≠ some 'p' := fun line hline =>
    head_ne_p (d.body line hline)
  rw [DimacsText.lines, readHeader_append hbefore]
  by_cases hp : d.header.head? = some 'p'
  · obtain ⟨v, c, hwords, hv, -⟩ := d.heading
    have hskip : ¬(d.header = [] ∨ d.header.head? = some 'c') := by
      rintro (hnil | hc)
      · rw [hnil] at hp
        cases hp
      · rw [hp] at hc
        exact absurd (Option.some.inj hc) (by decide)
    rw [readHeader, if_neg hskip, if_pos hp, if_pos hp, thirdInt_words 0 hwords hv]
  · have hall : ∀ line ∈ d.header :: d.after, line.head? ≠ some 'p' :=
      List.forall_mem_cons.mpr ⟨hp, hafter⟩
    have happend : readHeader (d.header :: d.after ++ []) = readHeader [] := readHeader_append hall
    rw [List.append_nil] at happend
    rw [if_neg hp, happend]
    rfl

/-! ### The literals -/

/-- The numbers up to the first comment. -/
def uncommented (d : DimacsText) : List ℤ :=
  (d.after.takeWhile fun line => !isComment line).flatMap lineInts

/-- The numbers behind the first comment. -/
def commented (d : DimacsText) : List ℤ :=
  (d.after.dropWhile fun line => !isComment line).flatMap lineInts

theorem uncommented_append (d : DimacsText) :
    uncommented d ++ commented d = d.clauses.flatMap (· ++ [0]) := by
  rw [← d.closed, uncommented, commented, ← List.flatMap_append, List.takeWhile_append_dropWhile]

/-- **Reading stops at the first comment.** -/
theorem allInts_after (d : DimacsText) (hrange : ∀ line ∈ d.after, ∀ l ∈ lineInts line, InInt32 l)
    {text : List Char} (htext : words isSpace text = d.after.flatMap (words isSpace)) :
    allInts text = uncommented d := by
  have hcut := List.takeWhile_append_dropWhile (p := fun line => !isComment line) (l := d.after)
  rw [← hcut, List.flatMap_append] at htext
  have hbody : ∀ line ∈ d.after.takeWhile (fun line => !isComment line),
      line ∈ d.after ∧ isComment line = false ∧ IsBody line := by
    intro line hline
    have hmem := (List.takeWhile_sublist _).subset hline
    have hno : isComment line = false := by
      have himp := List.mem_takeWhile_imp hline
      simpa using himp
    exact ⟨hmem, hno, (d.body line hmem).resolve_left (by simp [hno])⟩
  have hints : ∀ line ∈ d.after.takeWhile (fun line => !isComment line),
      lineInts line = (words isSpace line).filterMap integer := fun line hline =>
    if_neg (by simp [(hbody line hline).2.1])
  have hread : uncommented d =
      ((d.after.takeWhile fun line => !isComment line).flatMap (words isSpace)).filterMap integer := by
    rw [uncommented, List.filterMap_flatMap]
    exact List.flatMap_congr hints
  rw [hread]
  refine readInts_words le_rfl htext (fun w hw => ?_) fun w hw => ?_
  · obtain ⟨line, hline, hw⟩ := List.mem_flatMap.mp hw
    obtain ⟨v, hv⟩ := (hbody line hline).2.2 w hw
    refine ⟨v, hv, hrange line (hbody line hline).1 v ?_⟩
    rw [hints line hline]
    exact List.mem_filterMap.mpr ⟨w, hw, hv⟩
  · -- behind the numerals stands a comment, if anything
    cases hdrop : d.after.dropWhile fun line => !isComment line with
    | nil =>
        rw [hdrop] at hw
        cases hw
    | cons line lines =>
        have hcomment : isComment line = true := by
          have hnot := List.head?_dropWhile_not (fun line => !isComment line) d.after
          rw [hdrop] at hnot
          simpa using hnot
        obtain ⟨v, vs, hwords, hv⟩ := isComment_words hcomment
        rw [hdrop, List.flatMap_cons, hwords] at hw
        obtain rfl : v = w := Option.some.inj hw
        exact hv

/-- **The result for a well-formed text.** -/
theorem parseDIMACS_eq (d : DimacsText) (hrange : ∀ line ∈ d.after, ∀ l ∈ lineInts line, InInt32 l)
    (hp : d.header.head? = some 'p') (hpos : 1 ≤ d.nbVar) (hle : d.nbVar ≤ 1073741822) :
    parseDIMACS d.text = .ok { nbVar := d.nbVar, clauses := clausesOf [] (uncommented d) } := by
  obtain ⟨hfirst, hrest⟩ := readHeader_textLines d.text
  rw [d.splitOn_text, readHeader_lines, if_pos hp, if_pos (by omega)] at hfirst hrest
  have hints := allInts_after d hrange ((words_intercalate _).trans hrest)
  rw [parseDIMACS, hfirst, if_neg (by omega), if_pos (by unfold maxInt32; omega), hints, readClauses_eq,
    List.nil_append, Int.emod_eq_of_lt (by omega) (by omega)]

/-- **A formula is read from these texts only.** -/
theorem header_of_parseDIMACS {d : DimacsText} {formula : WeightedCNF}
    (h : parseDIMACS d.text = .ok formula) :
    d.header.head? = some 'p' ∧ 1 ≤ d.nbVar ∧ d.nbVar ≤ 1073741822 := by
  obtain ⟨hfirst, -⟩ := readHeader_textLines d.text
  rw [d.splitOn_text, readHeader_lines] at hfirst
  by_cases hp : d.header.head? = some 'p'
  · rw [if_pos hp] at hfirst
    simp only at hfirst
    rw [parseDIMACS, hfirst] at h
    unfold maxInt32 at h
    refine ⟨hp, ?_⟩
    by_cases hbound : d.nbVar ≤ 2147483647
    · rw [if_pos hbound] at h
      split at h
      · cases h
      · split at h
        · omega
        · cases h
    · rw [if_neg hbound, if_neg (by decide), if_neg (by decide)] at h
      cases h
  · rw [if_neg hp] at hfirst
    rw [parseDIMACS, hfirst, if_pos rfl] at h
    cases h

end HydraSAT.CubeGenerator
