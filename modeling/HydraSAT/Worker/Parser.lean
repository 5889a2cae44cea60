import HydraSAT.Lib.Numeral
import HydraSAT.Lib.Scan

/-!
# Reading ganak's output

`parser.py`.  `parse_ganak_unweighted_count` searches the text for two patterns in turn and returns
`"0"` when it finds neither.

* `Reports`: what a text reports, whatever became of the process that printed it;
* `parse_of_reports`: the parser returns what the text reports;
* `parse_of_no_count`: on a text without a count it returns `"0"`, whatever the text says;
* `Report.reports_text`: complete outputs of ganak report their count.
-/

namespace HydraSAT.Worker

open HydraSAT.Lib

/-- The characters `\s` matches in a Python string. -/
def pySpaces : List ℕ :=
  [0x9, 0xa, 0xb, 0xc, 0xd, 0x1c, 0x1d, 0x1e, 0x1f, 0x20, 0x85, 0xa0, 0x1680, 0x2000, 0x2001, 0x2002,
    0x2003, 0x2004, 0x2005, 0x2006, 0x2007, 0x2008, 0x2009, 0x200a, 0x2028, 0x2029, 0x202f, 0x205f,
    0x3000]

/-- The zeros of the decimal digits, which come in runs of ten. -/
def pyZeros : List ℕ :=
  [0x30, 0x660, 0x6f0, 0x7c0, 0x966, 0x9e6, 0xa66, 0xae6, 0xb66, 0xbe6, 0xc66, 0xce6, 0xd66, 0xde6,
    0xe50, 0xed0, 0xf20, 0x1040, 0x1090, 0x17e0, 0x1810, 0x1946, 0x19d0, 0x1a80, 0x1a90, 0x1b50,
    0x1bb0, 0x1c40, 0x1c50, 0xa620, 0xa8d0, 0xa900, 0xa9d0, 0xa9f0, 0xaa50, 0xabf0, 0xff10, 0x104a0,
    0x10d30, 0x11066, 0x110f0, 0x11136, 0x111d0, 0x112f0, 0x11450, 0x114d0, 0x11650, 0x116c0, 0x11730,
    0x118e0, 0x11950, 0x11c50, 0x11d50, 0x11da0, 0x16a60, 0x16ac0, 0x16b50, 0x1d7ce, 0x1d7d8, 0x1d7e2,
    0x1d7ec, 0x1d7f6, 0x1e140, 0x1e2f0, 0x1e950, 0x1fbf0]

/-- `\s`. -/
def isPySpace (c : Char) : Bool := pySpaces.contains c.toNat

/-- `\d`. -/
def isPyDigit (c : Char) : Bool := pyZeros.any fun z => z ≤ c.toNat && c.toNat < z + 10

/-- `(\d+)` behind the words, each followed by `\s+`, at the start of a text. -/
def readCount (words : List (List Char)) (text : List Char) : Option (List Char) :=
  (skipWords isPySpace words text).bind (takeRun isPyDigit)

/-- `match.group(1)` of `re.search` for these words and a number. -/
def searchCount (words : List (List Char)) (text : List Char) : Option (List Char) :=
  search (readCount words) text

/-- The word that both patterns look for in the middle. -/
def exactWord : List Char := ['e', 'x', 'a', 'c', 't']

/-- `c\s+o\s+exact\s+arb\s+(\d+)`. -/
def patternO : List (List Char) := [['c'], ['o'], exactWord, ['a', 'r', 'b']]

/-- `c\s+s\s+exact\s+arb\s+int\s+(\d+)`. -/
def patternS : List (List Char) :=
  [['c'], ['s'], exactWord, ['a', 'r', 'b'], ['i', 'n', 't']]

/-- `s UNSATISFIABLE`. -/
def unsatWord : List Char :=
  ['s', ' ', 'U', 'N', 'S', 'A', 'T', 'I', 'S', 'F', 'I', 'A', 'B', 'L', 'E']

/-- `parse_ganak_unweighted_count`. -/
def parseGanakUnweightedCount (stdoutText : List Char) : String :=
  match searchCount patternO stdoutText with
  | some count => String.ofList count
  | none =>
      match searchCount patternS stdoutText with
      | some count => String.ofList count
      | none => if unsatWord <:+: stdoutText then "0" else "0"

/-! ### What an output reports -/

/-- A line of ganak's output. -/
inductive OutputLine
  | countO (num : List Char)
  | countS (num : List Char)
  | unsatisfiable
  | other (text : List Char)

/-- The text of a line. -/
def OutputLine.render : OutputLine → List Char
  | .countO num => spaced ' ' patternO num
  | .countS num => spaced ' ' patternS num
  | .unsatisfiable => unsatWord
  | .other text => text

/-- The numeral of a count line. -/
def OutputLine.numeral : OutputLine → Option (List Char)
  | .countO num => some num
  | .countS num => some num
  | _ => none

/-- The text has this line, with its newline. -/
def HasLine (text line : List Char) : Prop :=
  '\n' ∉ line ∧ ∃ pre post, text = pre ++ (line ++ '\n' :: post) ∧
    (pre = [] ∨ pre.getLast? = some '\n')

/-- The numeral stands in the text as a count, in whatever layout. -/
def Printed (text num : List Char) : Prop :=
  Occurs (readCount patternO) text num ∨ Occurs (readCount patternS) text num

/-- What a printed text reports, however the process that printed it has ended: the number of a
complete count line, if nothing else in the text is a count, or zero, if there is no count and a
complete line says `s UNSATISFIABLE`. -/
inductive Reports (text : List Char) : ℕ → Prop
  | count {line : OutputLine} {num : List Char} {n : ℕ} : HasLine text line.render →
      line.numeral = some num → decimal num = some n →
      (∀ num', Printed text num' → decimal num' = some n) → Reports text n
  | unsatisfiable : HasLine text unsatWord → (∀ num, ¬Printed text num) → Reports text 0

/-! ### Count lines -/

theorem isPyDigit_of_isDigit {x : Char} (h : isDigit x = true) : isPyDigit x = true := by
  unfold isDigit at h
  obtain ⟨hlo, hhi⟩ := Bool.and_eq_true_iff.mp h
  have hlo' : 48 ≤ x.toNat := of_decide_eq_true hlo
  have hhi' : x.toNat ≤ 57 := of_decide_eq_true hhi
  refine List.any_eq_true.mpr ⟨0x30, by decide, ?_⟩
  rw [Bool.and_eq_true_iff, decide_eq_true_eq, decide_eq_true_eq]
  omega

theorem not_isPySpace_of_isDigit {x : Char} (h : isDigit x = true) : isPySpace x = false := by
  unfold isDigit at h
  obtain ⟨hlo, hhi⟩ := Bool.and_eq_true_iff.mp h
  have hlo' : 48 ≤ x.toNat := of_decide_eq_true hlo
  have hhi' : x.toNat ≤ 57 := of_decide_eq_true hhi
  rw [isPySpace, Bool.eq_false_iff]
  intro hmem
  have hno : ∀ z ∈ pySpaces, z < 48 ∨ 57 < z := by decide
  rcases hno _ (List.contains_iff_mem.mp hmem) with h' | h' <;> omega

/-- **The numeral of a count line is read** by the words in front of it, up to the end of the line. -/
theorem readCount_line {words : List (List Char)} {num post : List Char} {n : ℕ}
    (hwords : ∀ w ∈ words, w.head?.map isPySpace = some false) (hnum : decimal num = some n) :
    readCount words (spaced ' ' words num ++ '\n' :: post) = some num := by
  obtain ⟨hne, hdig⟩ := decimal_isSome.mp (by rw [hnum]; rfl)
  have hfirst : (num ++ '\n' :: post).head?.map isPySpace = some false := by
    obtain ⟨d, ds, rfl⟩ := List.exists_cons_of_ne_nil hne
    exact congrArg some (not_isPySpace_of_isDigit (hdig d List.mem_cons_self))
  rw [readCount, spaced_append, skipWords_spaced (by decide) hwords hfirst]
  exact takeRun_append hne (fun x hx => isPyDigit_of_isDigit (hdig x hx)) (by decide)

/-- The number of a complete count line is printed. -/
theorem HasLine.printed {text num : List Char} {line : OutputLine} {n : ℕ}
    (h : HasLine text line.render) (hline : line.numeral = some num) (hnum : decimal num = some n) :
    Printed text num := by
  obtain ⟨-, pre, post, rfl, -⟩ := h
  cases line with
  | countO num' =>
      obtain rfl := Option.some.inj hline
      exact .inl (Occurs.prepend (.head (readCount_line (by decide) hnum)) pre)
  | countS num' =>
      obtain rfl := Option.some.inj hline
      exact .inr (Occurs.prepend (.head (readCount_line (by decide) hnum)) pre)
  | unsatisfiable => cases hline
  | other text => cases hline

/-! ### What the parser returns -/

/-- **The last resort**: a text without a count parses as zero. -/
theorem parse_of_no_count {text : List Char} (h : ∀ num, ¬Printed text num) :
    parseGanakUnweightedCount text = "0" := by
  have hO : searchCount patternO text = none :=
    Option.eq_none_iff_forall_ne_some.mpr fun num hsome => h num (.inl (occurs_of_search hsome))
  have hS : searchCount patternS text = none :=
    Option.eq_none_iff_forall_ne_some.mpr fun num hsome => h num (.inr (occurs_of_search hsome))
  rw [parseGanakUnweightedCount, hO, hS]
  exact ite_self _

/-- Where a count is printed, the parser returns one that is. -/
theorem parse_of_printed {text num : List Char} (h : Printed text num) :
    ∃ num', Printed text num' ∧ parseGanakUnweightedCount text = String.ofList num' := by
  unfold parseGanakUnweightedCount
  cases hO : searchCount patternO text with
  | some num' => exact ⟨num', .inl (occurs_of_search hO), rfl⟩
  | none =>
      cases hS : searchCount patternS text with
      | some num' => exact ⟨num', .inr (occurs_of_search hS), rfl⟩
      | none =>
          rcases h with h | h
          · exact absurd (search_isSome h) (by rw [← searchCount, hO]; decide)
          · exact absurd (search_isSome h) (by rw [← searchCount, hS]; decide)

/-- **The parser returns what the text reports.** -/
theorem parse_of_reports {text : List Char} {n : ℕ} (h : Reports text n) :
    ∃ num, decimal num = some n ∧ parseGanakUnweightedCount text = String.ofList num := by
  cases h with
  | count hhas hline hnum hall =>
      obtain ⟨num', hprinted, hparse⟩ := parse_of_printed (hhas.printed hline hnum)
      exact ⟨num', hall num' hprinted, hparse⟩
  | unsatisfiable _ hno => exact ⟨['0'], rfl, parse_of_no_count hno⟩

/-- A text reports one number at the most. -/
theorem Reports.unique {text : List Char} {m n : ℕ} (hm : Reports text m) (hn : Reports text n) :
    m = n := by
  cases hm with
  | count hhas hline hnum hall =>
      cases hn with
      | count hhas' hline' hnum' _ =>
          exact Option.some.inj ((hall _ (hhas'.printed hline' hnum')).symm.trans hnum')
      | unsatisfiable _ hno => exact absurd (hhas.printed hline hnum) (hno _)
  | unsatisfiable _ hno =>
      cases hn with
      | count hhas' hline' hnum' _ => exact absurd (hhas'.printed hline' hnum') (hno _)
      | unsatisfiable _ _ => rfl

/-! ### Complete outputs -/

/-- The text of an output. -/
def renderLines (lines : List OutputLine) : List Char :=
  lines.flatMap fun line => line.render ++ ['\n']

/-- A line without the word `exact`. -/
def OutputLine.Plain (line : OutputLine) : Prop := '\n' ∉ line.render ∧ ¬exactWord <:+: line.render

/-- A complete output of ganak: every count line carries the count, other lines do not contain the word
`exact`, and where there is no count line the formula is unsatisfiable. -/
structure Report where
  lines : List OutputLine
  count : ℕ
  count_eq : ∀ line ∈ lines, ∀ num, line.numeral = some num → decimal num = some count
  plain : ∀ line ∈ lines, line.numeral = none → line.Plain
  reports : (∃ line ∈ lines, line.numeral.isSome = true) ∨ (.unsatisfiable ∈ lines ∧ count = 0)

theorem renderLines_cons (line : OutputLine) (lines : List OutputLine) :
    renderLines (line :: lines) = line.render ++ '\n' :: renderLines lines := by
  rw [renderLines, List.flatMap_cons, List.append_assoc]
  rfl

theorem hasLine_renderLines {lines : List OutputLine} {line : OutputLine} (hline : line ∈ lines)
    (hnl : '\n' ∉ line.render) : HasLine (renderLines lines) line.render := by
  obtain ⟨front, back, rfl⟩ := List.append_of_mem hline
  refine ⟨hnl, renderLines front, renderLines back, ?_, ?_⟩
  · rw [renderLines, List.flatMap_append, ← renderLines_cons]
    rfl
  · rcases List.eq_nil_or_concat front with rfl | ⟨xs, x, rfl⟩
    · exact .inl rfl
    · refine .inr ?_
      rw [renderLines, List.concat_eq_append, List.flatMap_append, List.flatMap_singleton,
        ← List.append_assoc, List.getLast?_append]
      rfl

/-! ### Where the patterns match -/

theorem ne_c_of_space {x : Char} (h : isPySpace x = true) : x ≠ 'c' := by
  rintro rfl
  exact absurd h (by decide)

/-- A match starts with `c`, and no other `c` comes before its `exact`. -/
theorem eq_of_match {k : Char} (hk : k ≠ 'c') {ws : List (List Char)} {cs zs : List Char}
    (h : skipWords isPySpace (['c'] :: [k] :: exactWord :: ws) cs = some zs) :
    ∃ pre post, cs = 'c' :: (pre ++ (exactWord ++ post)) ∧ ∀ x ∈ pre, x ≠ 'c' := by
  obtain ⟨g₁, ys, rfl, hg₁, h⟩ := skipWords_cons h
  obtain ⟨g₂, us, rfl, hg₂, h⟩ := skipWords_cons h
  obtain ⟨g₃, vs, rfl, -, -⟩ := skipWords_cons h
  refine ⟨g₁ ++ (k :: g₂), g₃ ++ vs, by simp, fun x hx => ?_⟩
  rcases List.mem_append.mp hx with hx | hx
  · exact ne_c_of_space (hg₁ x hx)
  · rcases List.mem_cons.mp hx with rfl | hx
    · exact hk
    · exact ne_c_of_space (hg₂ x hx)

theorem readCount_eq_none {k : Char} (hk : k ≠ 'c') {ws : List (List Char)} {x : Char}
    {xs : List Char} (hx : x ≠ 'c') :
    readCount (['c'] :: [k] :: exactWord :: ws) (x :: xs) = none := by
  rw [readCount]
  cases h : skipWords isPySpace (['c'] :: [k] :: exactWord :: ws) (x :: xs) with
  | none => rfl
  | some zs =>
      obtain ⟨pre, post, heq, -⟩ := eq_of_match hk h
      exact absurd (List.cons.inj heq).1 hx

/-- A stretch without a `c` holds no match. -/
theorem occurs_run {k : Char} (hk : k ≠ 'c') {ws : List (List Char)} {xs ys num : List Char}
    (h : Occurs (readCount (['c'] :: [k] :: exactWord :: ws)) (xs ++ ys) num)
    (hxs : ∀ x ∈ xs, x ≠ 'c') : Occurs (readCount (['c'] :: [k] :: exactWord :: ws)) ys num :=
  h.skip fun us v vs heq => readCount_eq_none hk (hxs v (by simp [heq]))

/-- In the text of an output, an `exact` that is not preceded by `c` anywhere does not exist. -/
theorem renderLines_ne {lines : List OutputLine}
    (hlines : ∀ line ∈ lines, line.numeral.isSome = true ∨ line.Plain) {pre post : List Char}
    (hpre : ∀ x ∈ pre, x ≠ 'c') : renderLines lines ≠ pre ++ (exactWord ++ post) := by
  induction lines generalizing pre with
  | nil =>
      intro h
      exact absurd (congrArg List.length h) (by simp [renderLines, exactWord])
  | cons line lines ih =>
      intro h
      have hrest := fun l hl => hlines l (List.mem_cons_of_mem line hl)
      rw [renderLines, List.flatMap_cons, List.append_assoc] at h
      rcases hlines line List.mem_cons_self with hnum | ⟨-, hfree⟩
      · have hc : ∃ tail, line.render = 'c' :: tail := by
          cases line with
          | countO num => exact ⟨_, rfl⟩
          | countS num => exact ⟨_, rfl⟩
          | unsatisfiable => exact nomatch hnum
          | other text => exact nomatch hnum
        obtain ⟨tail, hc⟩ := hc
        rw [hc] at h
        cases pre with
        | nil => exact absurd (List.cons.inj h).1 (by decide)
        | cons x pre => exact hpre x List.mem_cons_self (List.cons.inj h).1.symm
      · obtain ⟨pre', rfl, hR⟩ := eq_of_straddle (by decide) (by decide) hfree h
        exact ih hrest (fun x hx => hpre x (by simp [hx])) hR

/-- **Plain lines hold no match.** -/
theorem occurs_plain {k : Char} (hk : k ≠ 'c') {ws : List (List Char)} {line : OutputLine}
    {lines : List OutputLine} {num : List Char}
    (h : Occurs (readCount (['c'] :: [k] :: exactWord :: ws)) (renderLines (line :: lines)) num)
    (hline : line.Plain) (hlines : ∀ line ∈ lines, line.numeral.isSome = true ∨ line.Plain) :
    Occurs (readCount (['c'] :: [k] :: exactWord :: ws)) (renderLines lines) num := by
  have happend : Occurs (readCount (['c'] :: [k] :: exactWord :: ws))
      (line.render ++ ['\n'] ++ renderLines lines) num := h
  refine happend.skip fun us v vs heq => ?_
  by_cases hv : v = 'c'
  · subst hv
    rw [readCount]
    cases hmatch : skipWords isPySpace (['c'] :: [k] :: exactWord :: ws)
        ('c' :: vs ++ renderLines lines) with
    | none => rfl
    | some zs =>
        obtain ⟨pre, post, htext, hpre⟩ := eq_of_match hk hmatch
        exfalso
        -- the `c` is on the line, so the newline comes before the `exact`
        obtain ⟨xs, rfl⟩ : ∃ xs, vs = xs ++ ['\n'] := by
          rcases List.eq_nil_or_concat vs with rfl | ⟨xs, x, rfl⟩
          · have hlast := congrArg List.getLast? heq
            simp at hlast
          · have hlast := congrArg List.getLast? heq
            simp only [List.concat_eq_append, ← List.cons_append, ← List.append_assoc,
              List.getLast?_append, List.getLast?_singleton, Option.some_or] at hlast
            exact ⟨xs, by rw [List.concat_eq_append, ← Option.some.inj hlast]⟩
        have hfree : ¬exactWord <:+: 'c' :: xs := by
          intro hin
          refine hline.2 (hin.trans ⟨us, [], ?_⟩)
          have hcut : line.render ++ ['\n'] = us ++ 'c' :: xs ++ ['\n'] := by simpa using heq
          simpa using (List.append_cancel_right hcut).symm
        obtain ⟨pre', hpre', hR⟩ := @eq_of_straddle Char ('c' :: xs) (renderLines lines) ('c' :: pre)
          exactWord post '\n' (by decide) (by decide) hfree (by simpa using htext)
        refine renderLines_ne hlines (fun x hx => hpre x ?_) hR
        have hmem : pre = xs ++ '\n' :: pre' := (List.cons.inj hpre').2
        rw [hmem]
        simp [hx]
  · exact readCount_eq_none hk hv

/-- Where the letters `c` of a count line are. -/
theorem OutputLine.render_count {line : OutputLine} {num : List Char} {n : ℕ}
    (hline : line.numeral = some num) (hnum : decimal num = some n) :
    ∃ j tail, (j ≠ 'c' ∧ j ≠ '\n') ∧ ('c' ∉ tail ∧ '\n' ∉ tail) ∧
      line.render = 'c' :: ([' ', j, ' ', 'e', 'x', 'a'] ++ 'c' :: 't' :: tail) := by
  have hdig := (decimal_isSome.mp (by rw [hnum]; rfl)).2
  have hfree (y : Char) (hy : isDigit y = false) (words : List Char) (hwords : y ∉ words) :
      y ∉ words ++ num := by
    intro hmem
    rcases List.mem_append.mp hmem with hmem | hmem
    · exact hwords hmem
    · exact absurd (hdig y hmem) (by simp [hy])
  cases line with
  | countO num' =>
      obtain rfl := Option.some.inj hline
      exact ⟨'o', [' ', 'a', 'r', 'b', ' '] ++ num', by decide,
        ⟨hfree 'c' (by decide) _ (by decide), hfree '\n' (by decide) _ (by decide)⟩, rfl⟩
  | countS num' =>
      obtain rfl := Option.some.inj hline
      exact ⟨'s', [' ', 'a', 'r', 'b', ' ', 'i', 'n', 't', ' '] ++ num', by decide,
        ⟨hfree 'c' (by decide) _ (by decide), hfree '\n' (by decide) _ (by decide)⟩, rfl⟩
  | unsatisfiable => cases hline
  | other text => cases hline

theorem OutputLine.newline_notMem {line : OutputLine} {num : List Char} {n : ℕ}
    (hline : line.numeral = some num) (hnum : decimal num = some n) : '\n' ∉ line.render := by
  obtain ⟨j, tail, hj, htail, hrender⟩ := OutputLine.render_count hline hnum
  rw [hrender]
  simpa [hj.2.symm] using htail.2

/-- **A match on a count line starts at its beginning.** -/
theorem occurs_count {k : Char} (hk : k ≠ 'c') {ws : List (List Char)} {line : OutputLine}
    {lines : List OutputLine} {num num' : List Char} {n : ℕ}
    (h : Occurs (readCount (['c'] :: [k] :: exactWord :: ws)) (renderLines (line :: lines)) num)
    (hline : line.numeral = some num') (hnum : decimal num' = some n) :
    readCount (['c'] :: [k] :: exactWord :: ws) (renderLines (line :: lines)) = some num ∨
      Occurs (readCount (['c'] :: [k] :: exactWord :: ws)) (renderLines lines) num := by
  obtain ⟨j, tail, hj, htail, hrender⟩ := OutputLine.render_count hline hnum
  have htext : renderLines (line :: lines) =
      'c' :: ([' ', j, ' ', 'e', 'x', 'a'] ++ 'c' :: ('t' :: tail ++ ['\n'] ++ renderLines lines)) := by
    rw [renderLines_cons, hrender]
    simp
  rw [htext] at h ⊢
  refine h.uncons.imp id fun hrest => ?_
  have hsecond := occurs_run hk hrest (by simpa using hj.1)
  rcases hsecond.uncons with hstuck | hrest
  · -- the word `c` is not followed by a gap
    rw [readCount] at hstuck
    have hnone : skipWords isPySpace (['c'] :: [k] :: exactWord :: ws)
        ('c' :: ('t' :: tail ++ ['\n'] ++ renderLines lines)) = none := skipWords_stuck (by decide)
    rw [hnone] at hstuck
    exact absurd hstuck (by simp)
  · refine occurs_run hk hrest fun x hx => ?_
    rcases List.mem_append.mp hx with hx | hx
    · rcases List.mem_cons.mp hx with rfl | hx
      · decide
      · rintro rfl
        exact htail.1 hx
    · rw [List.mem_singleton.mp hx]
      decide

/-- Lines as ganak prints them. -/
def WellPrinted (lines : List OutputLine) : Prop :=
  ∀ line ∈ lines, (∃ num n, line.numeral = some num ∧ decimal num = some n) ∨ line.Plain

theorem WellPrinted.numeral_or_plain {lines : List OutputLine} (h : WellPrinted lines) :
    ∀ line ∈ lines, line.numeral.isSome = true ∨ line.Plain := by
  intro line hline
  rcases h line hline with ⟨num, n, hnum, -⟩ | hplain
  · exact Or.inl (by rw [hnum]; rfl)
  · exact Or.inr hplain

/-- A pattern that reads nothing but the numeral at the start of a count line finds only such numerals. -/
theorem occurs_renderLines {k : Char} (hk : k ≠ 'c') {ws : List (List Char)}
    (hread : ∀ {line : OutputLine} {num num' : List Char} {n : ℕ} {post : List Char},
      line.numeral = some num' → decimal num' = some n →
      readCount (['c'] :: [k] :: exactWord :: ws) (line.render ++ '\n' :: post) = some num → num = num')
    {lines : List OutputLine} (hlines : WellPrinted lines) {num : List Char}
    (h : Occurs (readCount (['c'] :: [k] :: exactWord :: ws)) (renderLines lines) num) :
    ∃ line ∈ lines, line.numeral = some num := by
  induction lines with
  | nil =>
      obtain ⟨pre, suf, heq, hsuf⟩ := h
      rw [(List.append_eq_nil_iff.mp heq.symm).2] at hsuf
      cases hsuf
  | cons line lines ih =>
      have htail : WellPrinted lines := fun l hl => hlines l (List.mem_cons_of_mem line hl)
      have hrest (h : Occurs (readCount (['c'] :: [k] :: exactWord :: ws)) (renderLines lines) num) :
          ∃ l ∈ line :: lines, l.numeral = some num := by
        obtain ⟨l, hl, hnum⟩ := ih htail h
        exact ⟨l, List.mem_cons_of_mem line hl, hnum⟩
      rcases hlines line List.mem_cons_self with ⟨num', n, hnum, hdec⟩ | hplain
      · rcases occurs_count hk h hnum hdec with hhere | h
        · rw [renderLines_cons] at hhere
          obtain rfl := hread hnum hdec hhere
          exact ⟨line, List.mem_cons_self, hnum⟩
        · exact hrest h
      · exact hrest (occurs_plain hk h hplain htail.numeral_or_plain)

theorem skipWords_ne {j k : Char} (hjk : k ≠ j) (hj : isPySpace j = false) {ws : List (List Char)}
    {text : List Char} : skipWords isPySpace (['c'] :: [k] :: ws) ('c' :: ' ' :: j :: text) = none := by
  refine (skipWords_word (by decide) hj).trans ?_
  rw [skipWords, skipWord, if_neg hjk]
  rfl

/-- **A count printed by an output stands on one of its count lines.** -/
theorem printed_renderLines {lines : List OutputLine} (hlines : WellPrinted lines) {num : List Char}
    (h : Printed (renderLines lines) num) : ∃ line ∈ lines, line.numeral = some num := by
  rcases h with h | h
  · refine occurs_renderLines (by decide) (fun {line num num' n post} hline hnum hread => ?_) hlines h
    cases line with
    | countO num'' =>
        obtain rfl := Option.some.inj hline
        exact Option.some.inj (hread.symm.trans (@readCount_line patternO _ post n (by decide) hnum))
    | countS num'' =>
        have hnone : skipWords isPySpace patternO ((OutputLine.countS num'').render ++ '\n' :: post) =
            none := skipWords_ne (by decide) (by decide)
        rw [readCount, ← patternO, hnone] at hread
        cases hread
    | unsatisfiable => cases hline
    | other text => cases hline
  · refine occurs_renderLines (by decide) (fun {line num num' n post} hline hnum hread => ?_) hlines h
    cases line with
    | countO num'' =>
        have hnone : skipWords isPySpace patternS ((OutputLine.countO num'').render ++ '\n' :: post) =
            none := skipWords_ne (by decide) (by decide)
        rw [readCount, ← patternS, hnone] at hread
        cases hread
    | countS num'' =>
        obtain rfl := Option.some.inj hline
        exact Option.some.inj (hread.symm.trans (@readCount_line patternS _ post n (by decide) hnum))
    | unsatisfiable => cases hline
    | other text => cases hline

theorem Report.wellPrinted (rep : Report) : WellPrinted rep.lines := by
  intro line hline
  cases hnum : line.numeral with
  | none => exact Or.inr (rep.plain line hline hnum)
  | some num => exact Or.inl ⟨num, rep.count, rfl, rep.count_eq line hline num hnum⟩

/-- **A complete output reports its count.** -/
theorem Report.reports_text (rep : Report) : Reports (renderLines rep.lines) rep.count := by
  have hprinted (num : List Char) (h : Printed (renderLines rep.lines) num) :
      decimal num = some rep.count := by
    obtain ⟨line, hline, hnum⟩ := printed_renderLines rep.wellPrinted h
    exact rep.count_eq line hline num hnum
  by_cases hcount : ∃ line ∈ rep.lines, line.numeral.isSome = true
  · obtain ⟨line, hline, hsome⟩ := hcount
    obtain ⟨num, hnum⟩ := Option.isSome_iff_exists.mp hsome
    have hdec := rep.count_eq line hline num hnum
    have hnl := OutputLine.newline_notMem hnum hdec
    exact .count (hasLine_renderLines hline hnl) hnum hdec hprinted
  · obtain ⟨hunsat, hzero⟩ := rep.reports.resolve_left hcount
    have hhas : HasLine (renderLines rep.lines) unsatWord :=
      hasLine_renderLines hunsat (rep.plain _ hunsat rfl).1
    rw [hzero]
    refine .unsatisfiable hhas fun num h => ?_
    obtain ⟨line, hline, hnum⟩ := printed_renderLines rep.wellPrinted h
    exact hcount ⟨line, hline, by rw [hnum]; rfl⟩

/-- The report of a count. -/
def countReport (n : ℕ) : Report where
  lines := [.countO (Nat.toDigits 10 n)]
  count := n
  count_eq := fun line hline num hnum => by
    rw [List.mem_singleton.mp hline] at hnum
    rw [← Option.some.inj hnum, decimal_toDigits]
  plain := fun line hline hnum => by
    rw [List.mem_singleton.mp hline] at hnum
    exact nomatch hnum
  reports := .inl ⟨_, List.mem_cons_self, rfl⟩

theorem parse_countReport (n : ℕ) : parseGanakUnweightedCount (renderLines (countReport n).lines) =
    String.ofList (Nat.toDigits 10 n) := by
  have hline : HasLine (renderLines (countReport n).lines) (OutputLine.countO _).render :=
    hasLine_renderLines List.mem_cons_self (OutputLine.newline_notMem rfl (decimal_toDigits n))
  obtain ⟨num, hprinted, hparse⟩ := parse_of_printed (hline.printed rfl (decimal_toDigits n))
  obtain ⟨line, hmem, hnum⟩ := printed_renderLines (countReport n).wellPrinted hprinted
  rw [List.mem_singleton.mp hmem] at hnum
  rw [hparse, ← Option.some.inj hnum]

end HydraSAT.Worker
