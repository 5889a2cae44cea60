import HydraSAT.Lib.InputStream
import HydraSAT.Master.TaskManager
import Mathlib.Data.List.DropRight

/-!
# The parser of the master

`ParseCNF` of `cnf_parser.go`.  The scanner gives the file line by line; comments are dropped, the header
is read, and every other line is kept for the workers and taken for one clause by the splitter.

* `scan_text`: what the scanner reads in a well-formed text;
* `ParseCNF_eq`: the result for a well-formed text with a header that is recognised;
* `numVars_of_ParseCNF`: the number of variables in any case.
-/

namespace HydraSAT.Master

open HydraSAT.Lib

/-! ### The standard library -/

/-- The code points of `unicode.IsSpace`. -/
def goSpaces : List ℕ :=
  [0x09, 0x0a, 0x0b, 0x0c, 0x0d, 0x20, 0x85, 0xa0, 0x1680, 0x2000, 0x2001, 0x2002, 0x2003, 0x2004,
    0x2005, 0x2006, 0x2007, 0x2008, 0x2009, 0x200a, 0x2028, 0x2029, 0x202f, 0x205f, 0x3000]

/-- `unicode.IsSpace`. -/
def isGoSpace (c : Char) : Bool := goSpaces.contains c.toNat

/-- `strings.TrimSpace`. -/
def trimSpace (s : List Char) : List Char := (s.dropWhile isGoSpace).rdropWhile isGoSpace

/-- `strings.Fields`. -/
def fields (s : List Char) : List (List Char) := words isGoSpace s

/-- `strconv.ParseInt(tok, 10, 32)`. -/
def parseInt32 (tok : List Char) : Option ℤ := (integer tok).filter fun v => decide (InInt32 v)

/-- `fmt.Sscanf(s, "%d", &v)` for an `int32`; a scan that fails leaves `v` as it is. -/
def sscanfInt32 (s : List Char) (v : ℤ) : ℤ :=
  match leadingInt s with
  | some (n, _) => if InInt32 n then n else v
  | none => v

/-- `bufio.ScanLines` drops a carriage return at the end of a line. -/
def dropCR (line : List Char) : List Char :=
  if line.getLast? = some '\r' then line.dropLast else line

/-- The buffer of the scanner, `4*1024*1024` bytes. -/
def bufferSize : ℕ := 4194304

/-- The bytes of a line in UTF-8. -/
def byteLength (line : List Char) : ℕ := (line.map Char.utf8Size).sum

/-! ### The parser -/

/-- The variables of the loop. -/
structure ParseState where
  bodyLines : List (List Char)
  clauses : List Clause
  numVars : ℤ
  numClauses : ℤ

/-- The clause of a line: tokens that are no `int32` are passed over, and `0` ends the clause. -/
def clauseOf : List (List Char) → Clause
  | [] => []
  | tok :: toks =>
      match parseInt32 tok with
      | none => clauseOf toks
      | some v => if v = 0 then [] else v :: clauseOf toks

/-- `strings.TrimSpace(scanner.Text())`. -/
def scanned (raw : List Char) : List Char := trimSpace (dropCR raw)

/-- `line == "" || strings.HasPrefix(line, "c")`. -/
def isSkipped (line : List Char) : Bool := line.isEmpty || ['c'].isPrefixOf line

/-- `strings.HasPrefix(line, "p cnf")`. -/
def isHeader (line : List Char) : Bool := ['p', ' ', 'c', 'n', 'f'].isPrefixOf line

/-- One turn of the loop. -/
def scanLine (st : ParseState) (line : List Char) : ParseState :=
  if isSkipped line then st
  else if isHeader line then
    match fields line with
    | _ :: _ :: v :: c :: _ =>
        { st with numVars := sscanfInt32 v st.numVars, numClauses := sscanfInt32 c st.numClauses }
    | _ => st
  else
    { st with
      bodyLines := st.bodyLines ++ [line]
      clauses :=
        if clauseOf (fields line) = [] then st.clauses else st.clauses ++ [clauseOf (fields line)] }

/-- The loop. -/
def scan (text : List Char) : ParseState :=
  (textLines text).foldl (fun st raw => scanLine st (scanned raw)) ⟨[], [], 0, 0⟩

/-- `ParseCNF`; `file` is what stands in the file, if it is there. -/
def ParseCNF (path : String) (file : Option (List Char)) : Except String CNFData :=
  if ['.', 'c', 'n', 'f'].isSuffixOf path.toList = false then .error (path ++ " is not a .cnf file")
  else match file with
    | none => .error ("file not found: " ++ path)
    | some text =>
        if (textLines text).any fun line => bufferSize ≤ byteLength line then
          .error "bufio.Scanner: token too long"
        else .ok
          { numVars := (scan text).numVars
            numClauses := (scan text).numClauses
            body := String.ofList (['\n'].intercalate (scan text).bodyLines)
            clauses := (scan text).clauses }

/-! ### Trimmed lines -/

variable {raw : List Char}

theorem isGoSpace_of_isSpace {c : Char} (h : isSpace c = true) : isGoSpace c = true := by
  have hmem : c ∈ [' ', '\t', '\n', '\x0b', '\x0c', '\r'] := List.contains_iff_mem.mp h
  simp only [List.mem_cons, List.not_mem_nil, or_false] at hmem
  rcases hmem with rfl | rfl | rfl | rfl | rfl | rfl <;> decide

theorem isGoSpace_of_isDigit {c : Char} (h : isDigit c = true) : isGoSpace c = false := by
  have hrange : 48 ≤ c.toNat ∧ c.toNat ≤ 57 := by
    simp only [isDigit, Bool.and_eq_true, decide_eq_true_eq] at h
    exact h
  refine Bool.eq_false_iff.mpr fun hspace => ?_
  have hmem := List.contains_iff_mem.mp hspace
  simp only [goSpaces, List.mem_cons, List.not_mem_nil, or_false] at hmem
  omega

/-- A line is blanks, the trimmed line and blanks. -/
theorem exists_trimSpace (s : List Char) : ∃ g g', s = g ++ (trimSpace s ++ g') ∧ IsGap isGoSpace g ∧
    IsGap isGoSpace g' ∧ ∀ c ∈ (trimSpace s).head?, isGoSpace c = false := by
  refine ⟨s.takeWhile isGoSpace, (s.dropWhile isGoSpace).rtakeWhile isGoSpace, ?_, gap_takeWhile s,
    fun c hc => List.mem_rtakeWhile_imp hc, fun c hc => ?_⟩
  · rw [trimSpace, List.rdropWhile_append_rtakeWhile, List.takeWhile_append_dropWhile]
  · have hpre : trimSpace s <+: s.dropWhile isGoSpace := List.rdropWhile_prefix _ _
    obtain ⟨t, ht⟩ := hpre
    have hnot := List.head?_dropWhile_not isGoSpace s
    cases htrim : trimSpace s with
    | nil =>
        rw [htrim] at hc
        cases hc
    | cons x xs =>
        rw [htrim] at hc ht
        obtain rfl := Option.some.inj hc
        rw [← ht] at hnot
        simpa using hnot

theorem exists_scanned (raw : List Char) : ∃ g g', raw = g ++ (scanned raw ++ g') ∧
    IsGap isGoSpace g ∧ IsGap isGoSpace g' ∧ ∀ c ∈ (scanned raw).head?, isGoSpace c = false := by
  obtain ⟨g, g', hcut, hg, hend, hhead⟩ := exists_trimSpace (dropCR raw)
  by_cases hlast : raw.getLast? = some '\r'
  · have hdrop : dropCR raw = raw.dropLast := if_pos hlast
    have hne : raw ≠ [] := fun hnil => by
      rw [hnil] at hlast
      cases hlast
    have happend := List.dropLast_append_getLast hne
    rw [List.getLast?_eq_some_getLast hne] at hlast
    rw [Option.some.inj hlast, ← hdrop, hcut, List.append_assoc, List.append_assoc] at happend
    refine ⟨g, g' ++ ['\r'], ?_, hg, fun c hc => ?_, hhead⟩
    · rw [scanned]
      conv_lhs => rw [← happend]
    · rcases List.mem_append.mp hc with hc | hc
      · exact hend c hc
      · rw [List.mem_singleton.mp hc]
        decide
  · have hdrop : dropCR raw = raw := if_neg hlast
    refine ⟨g, g', ?_, hg, hend, hhead⟩
    rw [scanned, ← hcut, hdrop]

/-- No other blanks than those of ASCII. -/
def IsPlain (raw : List Char) : Prop := ∀ c ∈ raw, isGoSpace c = isSpace c

theorem isPlain_of_words (h : ∀ w ∈ words isSpace raw, ∀ c ∈ w, isGoSpace c = false) : IsPlain raw := by
  intro c hc
  by_cases hspace : isSpace c = true
  · rw [hspace, isGoSpace_of_isSpace hspace]
  · have hfalse := Bool.eq_false_iff.mpr hspace
    obtain ⟨w, hw, hcw⟩ := exists_mem_words hc hfalse
    rw [hfalse, h w hw c hcw]

theorem isGoSpace_of_integer {w : List Char} {v : ℤ} (h : integer w = some v) {c : Char} (hc : c ∈ w) :
    isGoSpace c = false := by
  rcases mem_integer h hc with rfl | rfl | hdigit
  · decide
  · decide
  · exact isGoSpace_of_isDigit hdigit

theorem isPlain_of_body (h : IsBody raw) : IsPlain raw :=
  isPlain_of_words fun w hw c hc => by
    obtain ⟨v, hv⟩ := h w hw
    exact isGoSpace_of_integer hv hc

theorem isPlain_header (d : DimacsText) : IsPlain d.header := by
  obtain ⟨v, c, hwords, hv, hc⟩ := d.heading
  refine isPlain_of_words fun w hw x hx => ?_
  rw [hwords] at hw
  simp only [List.mem_cons, List.not_mem_nil, or_false] at hw
  rcases hw with rfl | rfl | rfl | rfl
  · rw [List.mem_singleton.mp hx]
    decide
  · simp only [List.mem_cons, List.not_mem_nil, or_false] at hx
    rcases hx with rfl | rfl | rfl <;> decide
  · exact isGoSpace_of_integer hv hx
  · exact isGoSpace_of_integer hc hx

theorem mem_of_mem_scanned {c : Char} (h : c ∈ scanned raw) : c ∈ raw := by
  obtain ⟨g, g', hcut, -⟩ := exists_scanned raw
  rw [hcut]
  exact List.mem_append_right g (List.mem_append_left g' h)

/-- **Trimming leaves the words of a line.** -/
theorem IsPlain.words_scanned (h : IsPlain raw) : words isSpace (scanned raw) = words isSpace raw ∧
    fields (scanned raw) = words isSpace raw := by
  have hfields : fields (scanned raw) = words isSpace raw := by
    obtain ⟨g, g', hcut, hg, hend, -⟩ := exists_scanned raw
    rw [← words_congr h]
    conv_rhs => rw [hcut]
    rw [words_gap_append hg, words_append_gap hend]
    rfl
  refine ⟨?_, hfields⟩
  rw [← hfields]
  exact (words_congr fun c hc => h c (mem_of_mem_scanned hc)).symm

theorem scanned_of_blank (h : words isSpace raw = []) : scanned raw = [] := by
  have hplain : IsPlain raw := isPlain_of_words fun w hw => by
    rw [h] at hw
    exact absurd hw List.not_mem_nil
  obtain ⟨-, -, -, -, -, hhead⟩ := exists_scanned raw
  refine List.eq_nil_iff_forall_not_mem.mpr fun c hc => ?_
  obtain ⟨x, xs, hx⟩ := List.exists_cons_of_ne_nil (List.ne_nil_of_mem hc)
  rw [hx] at hhead
  have hxraw : x ∈ raw := mem_of_mem_scanned (hx ▸ List.mem_cons_self)
  have hspace : isSpace x = false := (hplain x hxraw) ▸ hhead x rfl
  obtain ⟨w, hw, -⟩ := exists_mem_words hxraw hspace
  rw [h] at hw
  exact List.not_mem_nil hw

theorem scanned_of_comment (h : isComment raw = true) : (scanned raw).head? = some 'c' := by
  obtain ⟨rest, hrest⟩ := exists_of_isComment h
  have hraw := List.takeWhile_append_dropWhile (p := isSpace) (l := raw)
  obtain ⟨g, g', hcut, hg, hend, hnot⟩ := exists_scanned raw
  have hgap : ∀ c ∈ raw.takeWhile isSpace, isGoSpace c = true := fun c hc =>
    isGoSpace_of_isSpace (gap_takeWhile raw c hc)
  rw [hrest, hcut] at hraw
  have hc : ¬isGoSpace 'c' = true := by decide
  cases hscan : scanned raw with
  | nil =>
      rw [hscan] at hcut
      have hmem : 'c' ∈ raw :=
        (List.dropWhile_sublist isSpace).subset (hrest ▸ List.mem_cons_self)
      rw [hcut, List.nil_append] at hmem
      exact absurd ((List.mem_append.mp hmem).elim (hg 'c') (hend 'c')) hc
  | cons x xs =>
      rw [hscan] at hraw hnot
      have hx : ¬isGoSpace x = true := by simp [hnot x rfl]
      rw [hcut, hscan] at hgap
      have hfirst := append_cons_inj_of_first (p := fun c => isGoSpace c = true) hgap hg hc hx hraw
      rw [← hfirst.1]
      rfl

/-- A line of numerals begins with one. -/
theorem scanned_of_body (h : IsBody raw) (hne : words isSpace raw ≠ []) :
    ∃ c rest, scanned raw = c :: rest ∧ (c = '-' ∨ c = '+' ∨ isDigit c = true) := by
  obtain ⟨w, ws, hwords⟩ := List.exists_cons_of_ne_nil hne
  have hfields : words isGoSpace (scanned raw) = w :: ws := by
    rw [← hwords]
    exact (isPlain_of_body h).words_scanned.2
  obtain ⟨v, hv⟩ := h w (hwords ▸ List.mem_cons_self)
  obtain ⟨g, rest, hcut, hg, hwne, -⟩ := exists_of_words_cons hfields
  obtain ⟨-, -, -, -, -, hhead⟩ := exists_scanned raw
  have hgnil : g = [] := by
    cases g with
    | nil => rfl
    | cons x g =>
        have hx := hg x List.mem_cons_self
        rw [hcut] at hhead
        exact absurd hx (by simp [hhead x rfl])
  obtain ⟨c, cs, rfl⟩ := List.exists_cons_of_ne_nil hwne
  refine ⟨c, cs ++ rest, ?_, mem_integer hv List.mem_cons_self⟩
  rw [hcut, hgnil]
  rfl

/-! ### The loop -/

/-- The lines that are kept. -/
def isKept (line : List Char) : Bool := !isSkipped line

theorem isPrefixOf_cons_of_ne {x c : Char} {w rest : List Char} (h : x ≠ c) :
    (x :: w).isPrefixOf (c :: rest) = false := by
  show (x == c && w.isPrefixOf rest) = false
  rw [beq_eq_false_iff_ne.mpr h, Bool.false_and]

theorem isHeader_of_skipped {line : List Char} (h : isSkipped line = true) : isHeader line = false := by
  cases line with
  | nil => rfl
  | cons x xs =>
      have hx : 'c' = x := by
        by_contra hne
        rw [isSkipped, isPrefixOf_cons_of_ne hne] at h
        cases h
      exact isPrefixOf_cons_of_ne (hx ▸ by decide)

theorem scanLine_skipped (st : ParseState) {line : List Char} (h : isSkipped line = true) :
    scanLine st line = st := if_pos h

/-- A line that is no header. -/
theorem scanLine_line (st : ParseState) {line : List Char} (h : isHeader line = false) :
    scanLine st line =
      { st with
        bodyLines := st.bodyLines ++ [line].filter isKept
        clauses := st.clauses ++
          withLiterals (([line].filter isKept).map fun line => clauseOf (fields line)) } := by
  by_cases hskip : isSkipped line = true
  · rw [scanLine_skipped st hskip]
    simp [isKept, hskip, withLiterals]
  · rw [Bool.not_eq_true] at hskip
    rw [scanLine, if_neg (by simp [hskip]), if_neg (by simp [h])]
    by_cases hclause : clauseOf (fields line) = []
    · simp [isKept, hskip, withLiterals, hclause]
    · simp [isKept, hskip, withLiterals, hclause]

/-- **Lines behind the header.** -/
theorem foldl_scanLine {lines : List (List Char)} (h : ∀ line ∈ lines, isHeader line = false)
    (st : ParseState) : lines.foldl scanLine st =
      { st with
        bodyLines := st.bodyLines ++ lines.filter isKept
        clauses := st.clauses ++
          withLiterals ((lines.filter isKept).map fun line => clauseOf (fields line)) } := by
  induction lines generalizing st with
  | nil =>
      rw [List.foldl_nil, List.filter_nil, List.map_nil, List.append_nil]
      show st = { st with clauses := st.clauses ++ [] }
      rw [List.append_nil]
  | cons line lines ih =>
      obtain ⟨hline, hlines⟩ := List.forall_mem_cons.mp h
      have hsplit : (line :: lines).filter isKept = [line].filter isKept ++ lines.filter isKept :=
        List.filter_append [line] lines
      rw [List.foldl_cons, scanLine_line st hline, ih hlines, hsplit, List.map_append]
      unfold withLiterals
      rw [List.filter_append, List.append_assoc, List.append_assoc]

/-- **The lines of a well-formed text.** -/
theorem scanned_after (h : isComment raw = true ∨ IsBody raw) :
    isHeader (scanned raw) = false ∧ (isKept (scanned raw) = false ∧ lineInts raw = [] ∨
      isKept (scanned raw) = true ∧ isComment raw = false ∧ IsBody raw) := by
  by_cases hcomment : isComment raw = true
  · have hhead := scanned_of_comment hcomment
    have hskip : isSkipped (scanned raw) = true := by
      cases hscan : scanned raw with
      | nil =>
          rw [hscan] at hhead
          cases hhead
      | cons x xs =>
          rw [hscan] at hhead
          rw [Option.some.inj hhead]
          simp [isSkipped]
    refine ⟨isHeader_of_skipped hskip, .inl ⟨by rw [isKept, hskip]; rfl, ?_⟩⟩
    rw [lineInts, if_pos hcomment]
  · have hbody := h.resolve_left hcomment
    have hints : lineInts raw = (words isSpace raw).filterMap integer := if_neg hcomment
    by_cases hblank : words isSpace raw = []
    · rw [scanned_of_blank hblank, hints, hblank]
      exact ⟨rfl, .inl ⟨rfl, rfl⟩⟩
    · obtain ⟨c, rest, hscan, hc⟩ := scanned_of_body hbody hblank
      rw [hscan]
      have hne : c ≠ 'c' ∧ c ≠ 'p' := by
        rcases hc with rfl | rfl | hdigit
        · decide
        · decide
        · exact ⟨fun heq => absurd (heq ▸ hdigit) (by decide),
            fun heq => absurd (heq ▸ hdigit) (by decide)⟩
      refine ⟨isPrefixOf_cons_of_ne hne.2.symm, .inr ⟨?_, Bool.eq_false_iff.mpr hcomment, hbody⟩⟩
      rw [isKept, isSkipped, isPrefixOf_cons_of_ne hne.1.symm]
      rfl

theorem foldl_before {lines : List (List Char)}
    (h : ∀ line ∈ lines, isComment line = true ∨ words isSpace line = []) (st : ParseState) :
    lines.foldl (fun st raw => scanLine st (scanned raw)) st = st := by
  induction lines with
  | nil => rfl
  | cons line lines ih =>
      obtain ⟨hline, hlines⟩ := List.forall_mem_cons.mp h
      have hskip : isSkipped (scanned line) = true := by
        rcases hline with hcomment | hblank
        · have hkept := (scanned_after (.inl hcomment)).2
          rcases hkept with ⟨hkept, -⟩ | ⟨-, hno, -⟩
          · simpa [isKept] using hkept
          · rw [hcomment] at hno
            cases hno
        · rw [scanned_of_blank hblank]
          rfl
      rw [List.foldl_cons, scanLine_skipped st hskip]
      exact ih hlines

/-- The lines the master keeps for the workers. -/
def bodyLines (d : DimacsText) : List (List Char) := (d.after.map scanned).filter isKept

/-- **What the scanner reads in a well-formed text.** -/
theorem scan_text (d : DimacsText) : scan d.text =
    (d.after.map scanned).foldl scanLine (scanLine ⟨[], [], 0, 0⟩ (scanned d.header)) := by
  have hempty : ∀ st : ParseState, scanLine st (scanned []) = st := fun st => rfl
  unfold scan
  rw [foldl_textLines (f := fun st raw => scanLine st (scanned raw)) hempty, d.splitOn_text,
    DimacsText.lines, List.foldl_append, foldl_before d.skipped, List.foldl_cons, List.foldl_map]

theorem isHeader_after (d : DimacsText) : ∀ line ∈ d.after.map scanned, isHeader line = false := by
  intro line hline
  obtain ⟨raw, hraw, rfl⟩ := List.mem_map.mp hline
  exact (scanned_after (d.body raw hraw)).1

/-- A header at the beginning of its line. -/
theorem isHeader_iff {d : DimacsText} (h : d.header.head? = some 'p') :
    isHeader (scanned d.header) = true ↔ ['p', ' ', 'c', 'n', 'f'] <+: d.header := by
  obtain ⟨g, g', hcut, hg, hend, -⟩ := exists_scanned d.header
  have hgnil : g = [] := by
    cases g with
    | nil => rfl
    | cons x g =>
        rw [hcut] at h
        obtain rfl : x = 'p' := Option.some.inj h
        exact absurd (hg 'p' List.mem_cons_self) (by decide)
  rw [hgnil, List.nil_append] at hcut
  have hpre : scanned d.header <+: d.header := ⟨g', hcut.symm⟩
  constructor
  · intro hheader
    exact (List.isPrefixOf_iff_prefix.mp hheader).trans hpre
  · intro hheader
    refine List.isPrefixOf_iff_prefix.mpr ?_
    rcases List.prefix_or_prefix_of_prefix hheader hpre with hle | ⟨t, ht⟩
    · exact hle
    · -- what is trimmed is no letter
      obtain ⟨rest, hrest⟩ := hheader
      have htnil : t = [] := by
        by_contra hne
        have hlast : t.getLast hne = 'f' := by
          have happend := List.getLast_append_of_ne_nil (l := scanned d.header) (by simp [hne]) hne
          rw [← happend]
          simp only [ht]
          rfl
        have hmem : 'f' ∈ t := hlast ▸ List.getLast_mem hne
        rw [hcut, ← ht, List.append_assoc, List.append_cancel_left_eq] at hrest
        exact absurd (hend 'f' (hrest ▸ List.mem_append_left rest hmem)) (by decide)
      exact ⟨[], by rw [List.append_nil, ← ht, htnil, List.append_nil]⟩

/-- A numeral that is scanned. -/
theorem sscanfInt32_numeral {w : List Char} {n : ℤ} (h : integer w = some n) (v : ℤ) :
    sscanfInt32 w v = if InInt32 n then n else v := by
  have hread : leadingInt (w ++ []) = some (n, []) := leadingInt_append h fun c hc => nomatch hc
  rw [List.append_nil] at hread
  rw [sscanfInt32, hread]

/-- The header of a well-formed text. -/
theorem scanLine_header (d : DimacsText) (h : isHeader (scanned d.header) = true) (st : ParseState) :
    scanLine st (scanned d.header) =
      { st with
        numVars := if InInt32 d.nbVar then (d.nbVar : ℤ) else st.numVars
        numClauses := if InInt32 d.clauses.length then (d.clauses.length : ℤ) else st.numClauses } := by
  have hskip : isSkipped (scanned d.header) ≠ true := fun hskip => by
    rw [isHeader_of_skipped hskip] at h
    cases h
  obtain ⟨v, c, hwords, hv, hc⟩ := d.heading
  rw [scanLine, if_neg hskip, if_pos h, (isPlain_header d).words_scanned.2, hwords]
  simp only [sscanfInt32_numeral hv, sscanfInt32_numeral hc]

/-! ### Results -/

theorem clauseOf_eq (toks : List (List Char)) :
    clauseOf toks = (toks.filterMap parseInt32).takeWhile (· ≠ 0) := by
  induction toks with
  | nil => rfl
  | cons tok toks ih =>
      rw [clauseOf]
      cases htok : parseInt32 tok with
      | none => rw [List.filterMap_cons_none htok, ih]
      | some v =>
          rw [List.filterMap_cons_some htok, List.takeWhile_cons]
          by_cases hv : v = 0
          · simp [hv]
          · simp [hv, ih]

theorem parseInt32_numeral {w : List Char} {n : ℤ} (h : integer w = some n) (hn : InInt32 n) :
    parseInt32 w = some n := by
  rw [parseInt32, h, Option.filter_some, if_pos (decide_eq_true hn)]

/-- The clause of a line. -/
theorem clauseOf_scanned (hcomment : isComment raw = false) (hbody : IsBody raw)
    (hrange : ∀ l ∈ lineInts raw, InInt32 l) :
    clauseOf (fields (scanned raw)) = (lineInts raw).takeWhile (· ≠ 0) := by
  have hints : lineInts raw = (words isSpace raw).filterMap integer := if_neg (by simp [hcomment])
  rw [clauseOf_eq, (isPlain_of_body hbody).words_scanned.2, hints]
  congr 1
  refine List.filterMap_congr fun w hw => ?_
  obtain ⟨v, hv⟩ := hbody w hw
  have hmem : v ∈ lineInts raw := by
    rw [hints]
    exact List.mem_filterMap.mpr ⟨w, hw, hv⟩
  rw [hv, parseInt32_numeral hv (hrange v hmem)]

/-- **The clauses of the splitter are the lines.** -/
theorem clauses_of_lines {lines : List (List Char)}
    (h : ∀ line ∈ lines, isComment line = true ∨ IsBody line)
    (hrange : ∀ line ∈ lines, ∀ l ∈ lineInts line, InInt32 l) :
    withLiterals (((lines.map scanned).filter isKept).map fun line => clauseOf (fields line)) =
      lineClauses (lines.map lineInts) := by
  induction lines with
  | nil => rfl
  | cons line lines ih =>
      obtain ⟨hline, hlines⟩ := List.forall_mem_cons.mp h
      obtain ⟨hlow, hlows⟩ := List.forall_mem_cons.mp hrange
      rw [List.map_cons, List.map_cons, lineClauses_cons, ← ih hlines hlows]
      rcases (scanned_after hline).2 with ⟨hkept, hnil⟩ | ⟨hkept, hcomment, hbody⟩
      · rw [List.filter_cons_of_neg (by simp [hkept]), hnil]
        rfl
      · rw [List.filter_cons_of_pos hkept, List.map_cons, withLiterals_cons,
          clauseOf_scanned hcomment hbody hlow]

/-- The lines that fit the buffer. -/
theorem any_textLines (d : DimacsText) :
    ((textLines d.text).any fun line => bufferSize ≤ byteLength line) = false ↔
      ∀ line ∈ d.lines, byteLength line < bufferSize := by
  have hany : ((textLines d.text).any fun line => bufferSize ≤ byteLength line) =
      d.lines.any fun line => bufferSize ≤ byteLength line := by
    rw [← d.splitOn_text]
    rcases textLines_cases d.text with h | h
    · rw [h]
    · rw [h, List.any_append]
      simp [byteLength, bufferSize]
  rw [hany, List.any_eq_false]
  simp only [decide_eq_true_eq, not_le]

/-- **The result for a well-formed text.** -/
theorem ParseCNF_eq {path : String} (hpath : ['.', 'c', 'n', 'f'] <:+ path.toList) (d : DimacsText)
    (hshort : ∀ line ∈ d.lines, byteLength line < bufferSize)
    (hheader : isHeader (scanned d.header) = true)
    (hrange : ∀ line ∈ d.after, ∀ l ∈ lineInts line, InInt32 l) :
    ParseCNF path (some d.text) = .ok
      { numVars := if InInt32 d.nbVar then (d.nbVar : ℤ) else 0
        numClauses := if InInt32 d.clauses.length then (d.clauses.length : ℤ) else 0
        body := String.ofList (['\n'].intercalate (bodyLines d))
        clauses := lineClauses (d.after.map lineInts) } := by
  have hany := (any_textLines d).mpr hshort
  have hsuffix : ['.', 'c', 'n', 'f'].isSuffixOf path.toList = true := List.isSuffixOf_iff_suffix.mpr hpath
  have htrue : ¬true = false := by decide
  have hfalse : ¬false = true := by decide
  simp only [ParseCNF, hsuffix, if_neg htrue, hany, if_neg hfalse]
  rw [scan_text, foldl_scanLine (isHeader_after d), scanLine_header d hheader]
  simp only [List.nil_append]
  rw [clauses_of_lines d.body hrange]
  rfl

/-- **The number of variables**, whatever the header looks like. -/
theorem numVars_of_ParseCNF {path : String} {d : DimacsText} {data : CNFData}
    (h : ParseCNF path (some d.text) = .ok data) : (∀ line ∈ d.lines, byteLength line < bufferSize) ∧
      data.numVars =
        if isHeader (scanned d.header) = true ∧ InInt32 d.nbVar then (d.nbVar : ℤ) else 0 := by
  unfold ParseCNF at h
  split at h
  · cases h
  · simp only at h
    split at h
    · cases h
    · rename_i hany
      refine ⟨(any_textLines d).mp (Bool.eq_false_iff.mpr hany), ?_⟩
      rw [← Except.ok.inj h, scan_text, foldl_scanLine (isHeader_after d)]
      by_cases hheader : isHeader (scanned d.header) = true
      · rw [scanLine_header d hheader]
        simp only [hheader, true_and]
      · rw [scanLine_line _ (Bool.eq_false_iff.mpr hheader), if_neg fun hand => hheader hand.1]

end HydraSAT.Master
