import HydraSAT.Lib.Dimacs
import HydraSAT.Lib.Numeral
import HydraSAT.Lib.Words

/-!
# DIMACS texts

A text is a list of lines: comments and blank lines anywhere, one header, and then the numbers of the
clauses, laid out over lines in any way.

* `DimacsText`: a well-formed text, with the formula it says;
* `DimacsText.unique`: a text says one formula;
* `clausesOf`: the clauses that a list of numbers says, `clausesOf_closed` if each is closed;
* `lineClauses`: what is read if every line is taken for a clause, and `lineClauses_eq_iff`: the layouts
  for which that is right.
-/

namespace HydraSAT.Lib

/-! ### Lines -/

/-- The blanks of ASCII. -/
def isSpace (c : Char) : Bool := [' ', '\t', '\n', '\x0b', '\x0c', '\r'].contains c

/-- A comment, possibly behind blanks. -/
def isComment (line : List Char) : Bool := (line.dropWhile isSpace).head? == some 'c'

/-- The numbers on a line. -/
def lineInts (line : List Char) : List ℤ :=
  if isComment line then [] else (words isSpace line).filterMap integer

/-- A line of numerals. -/
def IsBody (line : List Char) : Prop := ∀ w ∈ words isSpace line, ∃ v, integer w = some v

/-- A well-formed text: its lines, and the formula it says. -/
structure DimacsText where
  before : List (List Char)
  header : List Char
  after : List (List Char)
  nbVar : ℕ
  clauses : List Clause
  newline_free : ∀ line ∈ before ++ header :: after, '\n' ∉ line
  skipped : ∀ line ∈ before, isComment line = true ∨ words isSpace line = []
  heading : ∃ v c, words isSpace header = [['p'], ['c', 'n', 'f'], v, c] ∧
    integer v = some (nbVar : ℤ) ∧ integer c = some (clauses.length : ℤ)
  body : ∀ line ∈ after, isComment line = true ∨ IsBody line
  closed : after.flatMap lineInts = clauses.flatMap (· ++ [0])
  literals : ∀ c ∈ clauses, ∀ l ∈ c, l ≠ 0 ∧ l.natAbs ≤ nbVar

/-- The lines. -/
def DimacsText.lines (d : DimacsText) : List (List Char) := d.before ++ d.header :: d.after

/-- The text. -/
def DimacsText.text (d : DimacsText) : List Char := ['\n'].intercalate d.lines

theorem DimacsText.splitOn_text (d : DimacsText) : d.text.splitOn '\n' = d.lines :=
  List.splitOn_intercalate '\n' d.newline_free (by simp [DimacsText.lines])

/-! ### Clauses from numbers -/

/-- Reading clauses off a list of numbers, with the literals of the clause that is open.  A clause that
is not closed at the end counts if it has a literal. -/
def clausesOf : Clause → List ℤ → List Clause
  | cur, [] => if cur = [] then [] else [cur]
  | cur, l :: ls => if l = 0 then cur :: clausesOf [] ls else clausesOf (cur ++ [l]) ls

theorem clausesOf_append {c : Clause} (hc : ∀ l ∈ c, l ≠ 0) (cur : Clause) (ls : List ℤ) :
    clausesOf cur (c ++ ls) = clausesOf (cur ++ c) ls := by
  induction c generalizing cur with
  | nil => rw [List.nil_append, List.append_nil]
  | cons l c ih =>
      obtain ⟨hl, hc⟩ := List.forall_mem_cons.mp hc
      rw [List.cons_append, clausesOf, if_neg hl, ih hc, List.append_assoc, List.singleton_append]

theorem clausesOf_zero (cur : Clause) (ls : List ℤ) :
    clausesOf cur (0 :: ls) = cur :: clausesOf [] ls := by
  rw [clausesOf, if_pos rfl]

/-- **Closed clauses are read as they are.** -/
theorem clausesOf_closed {cs : List Clause} (hcs : ∀ c ∈ cs, ∀ l ∈ c, l ≠ 0) :
    clausesOf [] (cs.flatMap (· ++ [0])) = cs := by
  induction cs with
  | nil => rfl
  | cons c cs ih =>
      obtain ⟨hc, hcs⟩ := List.forall_mem_cons.mp hcs
      rw [List.flatMap_cons, List.append_assoc, clausesOf_append hc, List.nil_append,
        List.singleton_append, clausesOf_zero, ih hcs]

/-- The literals of the clauses are the numbers that are not zero. -/
theorem flatten_clausesOf (cur : Clause) (ls : List ℤ) :
    (clausesOf cur ls).flatten = cur ++ ls.filter (· ≠ 0) := by
  induction ls generalizing cur with
  | nil =>
      rw [clausesOf]
      split
      · rename_i hcur
        rw [hcur]
        rfl
      · simp
  | cons l ls ih =>
      rw [clausesOf]
      by_cases hl : l = 0
      · rw [if_pos hl, List.flatten_cons, ih]
        simp [hl]
      · rw [if_neg hl, ih]
        simp [hl]

theorem DimacsText.clausesOf_eq (d : DimacsText) :
    clausesOf [] (d.after.flatMap lineInts) = d.clauses := by
  rw [d.closed]
  exact clausesOf_closed fun c hc l hl => (d.literals c hc l hl).1

/-! ### Lines as clauses -/

/-- The clauses with a literal. -/
def withLiterals (cs : List Clause) : List Clause := cs.filter fun c => !c.isEmpty

/-- The clauses that are read if every line is taken for one, up to its first `0`. -/
def lineClauses (lines : List (List ℤ)) : List Clause :=
  withLiterals (lines.map fun line => line.takeWhile (· ≠ 0))

/-- No literal behind a `0`. -/
def OneClause (line : List ℤ) : Prop := ∀ l ∈ line.dropWhile (· ≠ 0), l = 0

/-- No line goes on with a clause that is open. -/
def StartsFresh : Bool → List (List ℤ) → Prop
  | _, [] => True
  | isOpen, [] :: lines => StartsFresh isOpen lines
  | isOpen, (n :: line) :: lines =>
      (isOpen = true → n = 0) ∧ StartsFresh (!(n :: line).contains 0) lines

theorem withLiterals_eq_self {cs : List Clause} (h : ∀ c ∈ cs, c ≠ []) : withLiterals cs = cs :=
  List.filter_eq_self.mpr fun c hc => by simp [h c hc]

theorem withLiterals_cons (c : Clause) (cs : List Clause) :
    withLiterals (c :: cs) = withLiterals [c] ++ withLiterals cs := by
  unfold withLiterals
  rw [← List.singleton_append, List.filter_append]

theorem withLiterals_singleton {c : Clause} (hc : c ≠ []) : withLiterals [c] = [c] :=
  withLiterals_eq_self fun _ hd => List.mem_singleton.mp hd ▸ hc

theorem flatten_withLiterals (cs : List Clause) : (withLiterals cs).flatten = cs.flatten := by
  induction cs with
  | nil => rfl
  | cons c cs ih =>
      rw [withLiterals_cons, List.flatten_append, ih, List.flatten_cons]
      cases c with
      | nil => rfl
      | cons l c => rw [withLiterals_singleton (List.cons_ne_nil l c), List.flatten_singleton]

/-- Every `0` behind a `0` closes an empty clause. -/
theorem withLiterals_clausesOf_zeros {zs : List ℤ} (hzs : ∀ z ∈ zs, z = 0) (ls : List ℤ) :
    withLiterals (clausesOf [] (zs ++ ls)) = withLiterals (clausesOf [] ls) := by
  induction zs with
  | nil => rfl
  | cons z zs ih =>
      obtain ⟨hz, hrest⟩ := List.forall_mem_cons.mp hzs
      rw [hz, List.cons_append, clausesOf_zero]
      exact ih hrest

/-- The open clause only grows. -/
theorem clausesOf_head {cur : Clause} (hcur : cur ≠ []) (ls : List ℤ) :
    ∃ x rest, clausesOf cur ls = (cur ++ x) :: rest := by
  induction ls generalizing cur with
  | nil => exact ⟨[], [], by rw [clausesOf, if_neg hcur, List.append_nil]⟩
  | cons l ls ih =>
      by_cases hl : l = 0
      · exact ⟨[], _, by rw [hl, clausesOf_zero, List.append_nil]⟩
      · obtain ⟨x, rest, hx⟩ := ih (List.append_ne_nil_of_right_ne_nil cur (List.cons_ne_nil l []))
        exact ⟨l :: x, rest, by rw [clausesOf, if_neg hl, hx, List.append_assoc, List.singleton_append]⟩

theorem lineClauses_cons (line : List ℤ) (lines : List (List ℤ)) :
    lineClauses (line :: lines) = withLiterals [line.takeWhile (· ≠ 0)] ++ lineClauses lines := by
  unfold lineClauses
  rw [List.map_cons, withLiterals_cons]

theorem takeWhile_ne_zero {line : List ℤ} (h : 0 ∉ line) : line.takeWhile (· ≠ 0) = line :=
  List.takeWhile_eq_self_iff.mpr fun l hl => by
    have hne : l ≠ 0 := fun h0 => h (h0 ▸ hl)
    simp [hne]

/-- A line that closes its clause. -/
theorem withLiterals_clausesOf_line {line : List ℤ} (hone : OneClause line) (hzero : 0 ∈ line)
    (cur : Clause) (ls : List ℤ) : withLiterals (clausesOf cur (line ++ ls)) =
      withLiterals [cur ++ line.takeWhile (· ≠ 0)] ++ withLiterals (clausesOf [] ls) := by
  have hcut : line.takeWhile (· ≠ 0) ++ line.dropWhile (· ≠ 0) = line :=
    List.takeWhile_append_dropWhile
  have hlits : ∀ l ∈ line.takeWhile (· ≠ 0), l ≠ 0 := fun l hl => by
    have himp := List.mem_takeWhile_imp hl
    simpa using himp
  cases hdrop : line.dropWhile (· ≠ 0) with
  | nil =>
      rw [hdrop, List.append_nil] at hcut
      exact absurd rfl (hlits 0 (hcut.symm ▸ hzero))
  | cons z zs =>
      unfold OneClause at hone
      rw [hdrop] at hone hcut
      obtain ⟨rfl, hzs⟩ := List.forall_mem_cons.mp hone
      calc withLiterals (clausesOf cur (line ++ ls))
          = withLiterals (clausesOf cur (line.takeWhile (· ≠ 0) ++ (0 :: (zs ++ ls)))) := by
            rw [← List.cons_append, ← List.append_assoc, hcut]
        _ = withLiterals ((cur ++ line.takeWhile (· ≠ 0)) :: clausesOf [] (zs ++ ls)) := by
            rw [clausesOf_append hlits, clausesOf_zero]
        _ = _ := by rw [withLiterals_cons, withLiterals_clausesOf_zeros hzs]

/-- **Lines are clauses if no line goes on with an open one.** -/
theorem withLiterals_clausesOf_iff {lines : List (List ℤ)} (hone : ∀ line ∈ lines, OneClause line)
    (cur : Clause) : withLiterals (clausesOf cur lines.flatten) = withLiterals [cur] ++ lineClauses lines ↔
      StartsFresh (!cur.isEmpty) lines := by
  induction lines generalizing cur with
  | nil =>
      refine iff_of_true ?_ trivial
      rw [List.flatten_nil, clausesOf]
      by_cases hcur : cur = []
      · rw [if_pos hcur, hcur]
        rfl
      · rw [if_neg hcur]
        exact (List.append_nil _).symm
  | cons line lines ih =>
      obtain ⟨hline, hrest⟩ := List.forall_mem_cons.mp hone
      cases line with
      | nil => exact ih hrest cur
      | cons n line =>
          rw [StartsFresh, List.flatten_cons, lineClauses_cons]
          by_cases hopen : cur ≠ [] ∧ n ≠ 0
          · -- the literal goes to the open clause
            refine iff_of_false (fun heq => ?_) fun h => hopen.2 (h.1 (by simp [hopen.1]))
            obtain ⟨x, rest, hx⟩ := clausesOf_head
              (List.append_ne_nil_of_right_ne_nil cur (List.cons_ne_nil n []))
              (line ++ lines.flatten)
            rw [List.cons_append, clausesOf, if_neg hopen.2, hx, withLiterals_cons,
              withLiterals_singleton (c := cur ++ [n] ++ x) (by simp),
              withLiterals_singleton hopen.1] at heq
            have hhead := congrArg List.length (List.cons.inj heq).1
            rw [List.length_append, List.length_append, List.length_singleton] at hhead
            omega
          · have hfree : (!cur.isEmpty) = true → n = 0 := fun hcur =>
              not_not.mp fun hn => hopen ⟨by simpa using hcur, hn⟩
            by_cases hzero : 0 ∈ n :: line
            · have hclosed : (!(n :: line).contains 0) = !([] : Clause).isEmpty := by
                simp only [List.contains_iff_mem.mpr hzero, List.isEmpty_nil]
              rw [withLiterals_clausesOf_line hline hzero, hclosed, ← ih hrest []]
              have hparts : withLiterals [cur ++ (n :: line).takeWhile (· ≠ 0)] =
                  withLiterals [cur] ++ withLiterals [(n :: line).takeWhile (· ≠ 0)] := by
                by_cases hcur : cur = []
                · rw [hcur]
                  rfl
                · rw [hfree (by simp [hcur])]
                  simp [withLiterals]
              rw [hparts, List.append_assoc, List.append_cancel_left_eq, List.append_cancel_left_eq]
              exact (and_iff_right hfree).symm
            · have hcur : cur = [] := not_not.mp fun hcur =>
                hzero (by rw [hfree (by simp [hcur])]; exact List.mem_cons_self)
              have hleft : (!(n :: line).contains 0) = !(n :: line).isEmpty := by
                simp only [List.isEmpty_cons, Bool.not_false, Bool.not_eq_true', List.contains_eq_mem,
                  decide_eq_false_iff_not]
                exact hzero
              have hlits : ∀ l ∈ n :: line, l ≠ 0 := fun l hl h0 => hzero (h0 ▸ hl)
              rw [hcur, clausesOf_append hlits, List.nil_append, hleft, takeWhile_ne_zero hzero]
              exact (ih hrest (n :: line)).trans (and_iff_right (by simp)).symm

/-- The literals in front of a `0` and those behind one. -/
theorem length_literals (lines : List (List ℤ)) : (lines.flatten.filter (· ≠ 0)).length =
    (lines.map fun line => line.takeWhile (· ≠ 0)).flatten.length +
      (lines.flatMap fun line => (line.dropWhile (· ≠ 0)).filter (· ≠ 0)).length := by
  induction lines with
  | nil => rfl
  | cons line lines ih =>
      have hline : line.filter (· ≠ 0) =
          line.takeWhile (· ≠ 0) ++ (line.dropWhile (· ≠ 0)).filter (· ≠ 0) := by
        conv_lhs => rw [← List.takeWhile_append_dropWhile (p := fun l : ℤ => decide (l ≠ 0)) (l := line)]
        rw [List.filter_append]
        congr 1
        exact List.filter_eq_self.mpr fun l hl =>
          List.mem_takeWhile_imp (p := fun l : ℤ => decide (l ≠ 0)) hl
      rw [List.flatten_cons, List.filter_append, List.length_append, ih, hline, List.map_cons,
        List.flatten_cons, List.flatMap_cons, List.length_append, List.length_append, List.length_append]
      omega

/-- **The layouts for which a line may be taken for a clause.** -/
theorem lineClauses_eq_iff {lines : List (List ℤ)} {cs : List Clause}
    (hclosed : lines.flatten = cs.flatMap (· ++ [0])) (hcs : ∀ c ∈ cs, ∀ l ∈ c, l ≠ 0) :
    lineClauses lines = cs ↔
      (∀ c ∈ cs, c ≠ []) ∧ (∀ line ∈ lines, OneClause line) ∧ StartsFresh false lines := by
  have hread : clausesOf [] lines.flatten = cs := by rw [hclosed, clausesOf_closed hcs]
  constructor
  · intro h
    have hne : ∀ c ∈ cs, c ≠ [] := by
      rw [← h]
      intro c hc hnil
      have hlit := (List.mem_filter.mp hc).2
      rw [hnil] at hlit
      exact nomatch hlit
    have hone : ∀ line ∈ lines, OneClause line := by
      have hcount := length_literals lines
      have hflat := flatten_clausesOf [] lines.flatten
      have hlines : (lineClauses lines).flatten = (lines.map fun line => line.takeWhile (· ≠ 0)).flatten :=
        flatten_withLiterals _
      rw [hread, List.nil_append] at hflat
      rw [← hflat, ← hlines, h] at hcount
      have hnil := List.length_eq_zero_iff.mp (Nat.left_eq_add.mp hcount)
      intro line hline l hl
      have hfilter := List.filter_eq_nil_iff.mp (List.flatMap_eq_nil_iff.mp hnil line hline) l hl
      simpa using hfilter
    refine ⟨hne, hone, (withLiterals_clausesOf_iff hone []).mp ?_⟩
    rw [hread, withLiterals_eq_self hne, h]
    rfl
  · intro h
    have hlines := (withLiterals_clausesOf_iff h.2.1 []).mpr h.2.2
    rw [hread, withLiterals_eq_self h.1] at hlines
    exact hlines.symm

/-! ### A text that is read up to some place -/

/-- **A reader that stops early** loses nothing if only a `0` follows. -/
theorem clausesOf_prefix_iff {ts rest : List ℤ} {cs : List Clause}
    (hclosed : ts ++ rest = cs.flatMap (· ++ [0])) (hcs : ∀ c ∈ cs, ∀ l ∈ c, l ≠ 0)
    (hne : ∀ c ∈ cs, c ≠ []) : clausesOf [] ts = cs ↔ ∀ l ∈ rest, l = 0 := by
  constructor
  · intro h l hl
    have hts := flatten_clausesOf [] ts
    have hall := flatten_clausesOf [] (ts ++ rest)
    rw [hclosed, clausesOf_closed hcs, ← hclosed, List.filter_append, ← h, hts] at hall
    have hnil : rest.filter (· ≠ 0) = [] := by
      have hlen := congrArg List.length hall
      rw [List.length_append, List.length_append, List.length_append] at hlen
      exact List.length_eq_zero_iff.mp (by omega)
    have hfilter := List.filter_eq_nil_iff.mp hnil l hl
    simpa using hfilter
  · intro hzeros
    induction cs generalizing ts with
    | nil => rw [(List.append_eq_nil_iff.mp hclosed).1, clausesOf, if_pos rfl]
    | cons c cs ih =>
        obtain ⟨hc, hcs⟩ := List.forall_mem_cons.mp hcs
        obtain ⟨hcne, hne⟩ := List.forall_mem_cons.mp hne
        rw [List.flatMap_cons, List.append_assoc, List.singleton_append] at hclosed
        -- the clause ends before the place: behind it are zeros only
        obtain ⟨ts', rfl⟩ : ∃ ts', ts = c ++ ts' := by
          rcases List.append_eq_append_iff.mp hclosed with ⟨b, hb, hrest⟩ | ⟨a, ha, -⟩
          · have hbnil : b = [] := List.eq_nil_iff_forall_not_mem.mpr fun l hl =>
              hc l (hb ▸ List.mem_append_right ts hl) (hzeros l (hrest ▸ List.mem_append_left _ hl))
            exact ⟨[], by rw [hb, hbnil, List.append_nil, List.append_nil]⟩
          · exact ⟨a, ha⟩
        rw [List.append_assoc, List.append_cancel_left_eq] at hclosed
        rw [clausesOf_append hc, List.nil_append]
        cases ts' with
        | nil =>
            have hrest : rest = 0 :: cs.flatMap (· ++ [0]) := hclosed
            have hcsnil : cs = [] := List.eq_nil_iff_forall_not_mem.mpr fun d hd => by
              obtain ⟨l, d', hld⟩ := List.exists_cons_of_ne_nil (hne d hd)
              have hl : l ∈ d := hld ▸ List.mem_cons_self
              refine hcs d hd l hl (hzeros l ?_)
              rw [hrest]
              exact List.mem_cons_of_mem 0
                (List.mem_flatMap.mpr ⟨d, hd, List.mem_append_left _ hl⟩)
            rw [clausesOf, if_neg hcne, hcsnil]
        | cons z ts' =>
            obtain ⟨hz, hrest⟩ := List.cons.inj hclosed
            rw [hz, clausesOf_zero, ih hrest hcs hne]

/-! ### A text says one formula -/

/-- A comment begins with `c`, behind blanks. -/
theorem exists_of_isComment {line : List Char} (h : isComment line = true) :
    ∃ rest, line.dropWhile isSpace = 'c' :: rest := by
  have hhead : (line.dropWhile isSpace).head? = some 'c' := by simpa [isComment] using h
  exact ⟨_, (List.eq_cons_of_mem_head? hhead)⟩

theorem skipped_ne_header (d : DimacsText) :
    ¬(isComment d.header = true ∨ words isSpace d.header = []) := by
  obtain ⟨v, c, hwords, -, -⟩ := d.heading
  rintro (hcomment | hnil)
  · -- the first word begins with `p`
    have hcut := List.takeWhile_append_dropWhile (p := isSpace) (l := d.header)
    obtain ⟨rest, hrest⟩ := exists_of_isComment hcomment
    rw [← hcut, hrest, words_gap_append (gap_takeWhile _)] at hwords
    have hword := List.takeWhile_append_dropWhile (p := fun x => !isSpace x) (l := 'c' :: rest)
    have hne : ('c' :: rest).takeWhile (fun x => !isSpace x) ≠ [] := by
      rw [List.takeWhile_cons_of_pos (by decide)]
      exact List.cons_ne_nil _ _
    rw [← hword, words_word_append hne (free_takeWhile _) (stops_dropWhile _),
      List.takeWhile_cons_of_pos (by decide)] at hwords
    exact absurd (List.cons.inj (List.cons.inj hwords).1).1 (by decide)
  · rw [hnil] at hwords
    exact nomatch hwords

/-- Lists with the same first exception have the same parts. -/
theorem append_cons_inj_of_first {α : Type*} {p : α → Prop} {x₁ x₂ y₁ y₂ : List α} {a b : α}
    (h₁ : ∀ x ∈ x₁, p x) (h₂ : ∀ x ∈ x₂, p x) (ha : ¬p a) (hb : ¬p b)
    (h : x₁ ++ a :: y₁ = x₂ ++ b :: y₂) : a = b ∧ y₁ = y₂ := by
  induction x₁ generalizing x₂ with
  | nil =>
      cases x₂ with
      | nil => exact List.cons.inj h
      | cons c x₂ => exact absurd (h₂ c List.mem_cons_self) ((List.cons.inj h).1 ▸ ha)
  | cons c x₁ ih =>
      cases x₂ with
      | nil => exact absurd (h₁ c List.mem_cons_self) ((List.cons.inj h).1 ▸ hb)
      | cons d x₂ =>
          exact ih (fun x hx => h₁ x (List.mem_cons_of_mem c hx))
            (fun x hx => h₂ x (List.mem_cons_of_mem d hx)) (List.cons.inj h).2

/-- **A text says one formula.** -/
theorem DimacsText.unique {d e : DimacsText} (h : d.text = e.text) :
    d.nbVar = e.nbVar ∧ d.clauses = e.clauses := by
  have hlines : d.lines = e.lines := by rw [← d.splitOn_text, ← e.splitOn_text, h]
  obtain ⟨hheader, hafter⟩ := append_cons_inj_of_first
    (p := fun line => isComment line = true ∨ words isSpace line = []) d.skipped e.skipped
    (skipped_ne_header d) (skipped_ne_header e) hlines
  constructor
  · obtain ⟨v, c, hwords, hv, -⟩ := d.heading
    obtain ⟨v', c', hwords', hv', -⟩ := e.heading
    rw [hheader, hwords'] at hwords
    obtain ⟨rfl, -⟩ := List.cons.inj (List.cons.inj (List.cons.inj hwords).2).2
    exact Int.ofNat.inj (Option.some.inj (hv.symm.trans hv'))
  · rw [← d.clausesOf_eq, ← e.clausesOf_eq, hafter]

end HydraSAT.Lib
