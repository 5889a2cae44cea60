import HydraSAT.Lib.DimacsText
import HydraSAT.Lib.FixedWidth

/-!
# Input streams

Lines of a text and formatted reading from a stream, as the standard libraries do it.  A stream is the
text that is left, or `none` when it has failed; a failed stream gives nothing any more.

* `textLines`: the lines of a text, and `foldl_textLines`: a reader that an empty line does not change
  may read the pieces between the newlines;
* `readInt_word`, `readWord_word`: a stream whose first word is known;
* `readInts_words`: reading integers until one fails, in a text that begins with numerals;
* `allInts_line`: the numbers of a line of a well-formed text.
-/

namespace HydraSAT.Lib

/-! ### Lines -/

/-- The lines of a text.  Behind the last newline there is no line unless something stands there. -/
def textLines (text : List Char) : List (List Char) :=
  if (text.splitOn '\n').getLast? = some [] then (text.splitOn '\n').dropLast else text.splitOn '\n'

/-- The lines and an empty one at most. -/
theorem textLines_cases (text : List Char) : textLines text = text.splitOn '\n' ∨
    text.splitOn '\n' = textLines text ++ [[]] := by
  unfold textLines
  by_cases hlast : (text.splitOn '\n').getLast? = some []
  · rw [if_pos hlast]
    refine .inr ?_
    have hne : text.splitOn '\n' ≠ [] := fun hnil => by
      rw [hnil] at hlast
      cases hlast
    have hget := List.dropLast_append_getLast hne
    rw [List.getLast?_eq_some_getLast hne] at hlast
    rw [Option.some.inj hlast] at hget
    exact hget.symm
  · rw [if_neg hlast]
    exact .inl rfl

/-- A reader that an empty line does not change may read the pieces between the newlines. -/
theorem foldl_textLines {β : Type*} {f : β → List Char → β} (hf : ∀ b, f b [] = b) (b : β)
    (text : List Char) : (textLines text).foldl f b = (text.splitOn '\n').foldl f b := by
  rcases textLines_cases text with h | h
  · rw [h]
  · rw [h, List.foldl_append, List.foldl_cons, List.foldl_nil, hf]

/-! ### Formatted reading -/

/-- `in >> x` for an `int`: the value of `x` afterwards, and the stream.  A stream with nothing left does
not touch `x`, a text that is no number sets it to `0`, and one out of range to the nearest `int`. -/
def readInt (x : ℤ) : Option (List Char) → ℤ × Option (List Char)
  | none => (x, none)
  | some cs =>
      if cs.dropWhile isSpace = [] then (x, none)
      else match leadingInt (cs.dropWhile isSpace) with
        | none => (0, none)
        | some (n, rest) =>
            if n < -2147483648 then (-2147483648, none)
            else if 2147483647 < n then (2147483647, none)
            else (n, some rest)

/-- `in >> s` for a string: the stream afterwards. -/
def readWord : Option (List Char) → Option (List Char)
  | none => none
  | some cs =>
      if cs.dropWhile isSpace = [] then none
      else some ((cs.dropWhile isSpace).dropWhile fun c => !isSpace c)

/-- `while (in >> x)`: the values of `x`, with at most as many readings as the first argument says. -/
def readInts : ℕ → List Char → List ℤ
  | 0, _ => []
  | fuel + 1, cs =>
      match readInt 0 (some cs) with
      | (x, some rest) => x :: readInts fuel rest
      | (_, none) => []

/-- `while (in >> x)` to its end; every reading takes a character. -/
def allInts (cs : List Char) : List ℤ := readInts cs.length cs

/-- `ss >> p >> cnf >> v` on a line, with two strings in front of the `int`: the value of `v`. -/
def thirdInt (v : ℤ) (line : List Char) : ℤ := (readInt v (readWord (readWord (some line)))).1

/-! ### The first word -/

variable {cs w : List Char} {ws : List (List Char)}

/-- Where the first word stands. -/
theorem exists_of_words_cons {α : Type*} {sep : α → Bool} {xs w : List α} {ws : List (List α)}
    (h : words sep xs = w :: ws) : ∃ g rest, xs = g ++ (w ++ rest) ∧ IsGap sep g ∧ w ≠ [] ∧
      IsFree sep w ∧ Stops sep rest ∧ words sep rest = ws := by
  induction xs using words_induction sep with
  | gap g hg =>
      rw [words_of_gap hg] at h
      cases h
  | word g v rest hg hne hv hrest ih =>
      rw [words_cons hg hne hv hrest] at h
      obtain ⟨rfl, hws⟩ := List.cons.inj h
      exact ⟨g, rest, rfl, hg, hne, hv, hrest, hws⟩

theorem dropWhile_gap_append {α : Type*} {sep : α → Bool} {g w rest : List α} (hg : IsGap sep g)
    (hne : w ≠ []) (hw : IsFree sep w) : (g ++ (w ++ rest)).dropWhile sep = w ++ rest := by
  rw [List.dropWhile_append_of_pos hg]
  obtain ⟨x, w, rfl⟩ := List.exists_cons_of_ne_nil hne
  rw [List.cons_append, List.dropWhile_cons_of_neg (by simp [hw x List.mem_cons_self])]

/-- Behind the blanks stands the first word. -/
theorem dropWhile_words_cons (h : words isSpace cs = w :: ws) : ∃ rest,
    cs.dropWhile isSpace = w ++ rest ∧ w ≠ [] ∧ IsFree isSpace w ∧ Stops isSpace rest ∧
      words isSpace rest = ws ∧ w.length + rest.length ≤ cs.length := by
  obtain ⟨g, rest, rfl, hg, hne, hw, hrest, hws⟩ := exists_of_words_cons h
  refine ⟨rest, dropWhile_gap_append hg hne hw, hne, hw, hrest, hws, ?_⟩
  rw [List.length_append, List.length_append]
  omega

theorem dropWhile_eq_nil_of_words (h : words isSpace cs = []) : cs.dropWhile isSpace = [] := by
  refine List.dropWhile_eq_nil_iff.mpr fun c hc => ?_
  by_contra hsep
  obtain ⟨w, hw, -⟩ := exists_mem_words hc (Bool.eq_false_iff.mpr hsep)
  rw [h] at hw
  exact absurd hw List.not_mem_nil

theorem isDigit_of_isSpace {c : Char} (h : isSpace c = true) : isDigit c = false := by
  have hmem : c ∈ [' ', '\t', '\n', '\x0b', '\x0c', '\r'] := List.contains_iff_mem.mp h
  simp only [List.mem_cons, List.not_mem_nil, or_false] at hmem
  rcases hmem with rfl | rfl | rfl | rfl | rfl | rfl <;> decide

/-- **The first word is skipped.** -/
theorem readWord_word (h : words isSpace cs = w :: ws) :
    ∃ rest, readWord (some cs) = some rest ∧ words isSpace rest = ws := by
  obtain ⟨rest, hdrop, hne, hw, hrest, hws, -⟩ := dropWhile_words_cons h
  refine ⟨rest, ?_, hws⟩
  have hpos : w ++ rest ≠ [] := by simp [hne]
  rw [readWord, hdrop, if_neg hpos, List.dropWhile_append_of_pos fun c hc => by simp [hw c hc]]
  cases rest with
  | nil => rfl
  | cons c rest =>
      have hc : isSpace c = true := hrest c rfl
      rw [List.dropWhile_cons_of_neg (by simp [hc])]

/-- **The first word is a numeral.** -/
theorem readInt_word (x : ℤ) {n : ℤ} (h : words isSpace cs = w :: ws) (hn : integer w = some n) :
    ∃ rest, words isSpace rest = ws ∧ rest.length < cs.length ∧ readInt x (some cs) =
      if n < -2147483648 then (-2147483648, none)
      else if 2147483647 < n then (2147483647, none) else (n, some rest) := by
  obtain ⟨rest, hdrop, hne, hw, hrest, hws, hlen⟩ := dropWhile_words_cons h
  have hpos : w ++ rest ≠ [] := by simp [hne]
  have hwlen := List.length_pos_iff.mpr hne
  refine ⟨rest, hws, by omega, ?_⟩
  rw [readInt, hdrop, if_neg hpos, leadingInt_append hn fun c hc => isDigit_of_isSpace (hrest c hc)]

theorem leadingInt_eq_none {c : Char} {cs : List Char} (hc : isDigit c = false) (hplus : c ≠ '+')
    (hminus : c ≠ '-') : leadingInt (c :: cs) = none := by
  have hnat : leadingNat (c :: cs) = none := by
    rw [leadingNat, List.takeWhile_cons_of_neg (by simp [hc])]
    rfl
  unfold leadingInt
  split
  · rename_i heq
    exact absurd (List.cons.inj heq).1 hminus
  · rename_i heq
    exact absurd (List.cons.inj heq).1 hplus
  · rw [hnat]
    rfl

/-- A word that does not begin like a number. -/
def NoNumber (w : List Char) : Prop := ∀ c ∈ w.head?, isDigit c = false ∧ c ≠ '+' ∧ c ≠ '-'

/-- Nothing is read from a text that goes on with no number. -/
theorem readInt_eq_none (x : ℤ) (h : ∀ w ∈ (words isSpace cs).head?, NoNumber w) :
    (readInt x (some cs)).2 = none := by
  cases hwords : words isSpace cs with
  | nil => rw [readInt, dropWhile_eq_nil_of_words hwords, if_pos rfl]
  | cons w ws =>
      obtain ⟨rest, hdrop, hne, -⟩ := dropWhile_words_cons hwords
      rw [hwords] at h
      obtain ⟨c, w, rfl⟩ := List.exists_cons_of_ne_nil hne
      obtain ⟨hdigit, hplus, hminus⟩ := h _ rfl c rfl
      rw [readInt, hdrop, if_neg (by simp), List.cons_append, leadingInt_eq_none hdigit hplus hminus]

/-! ### Reading on -/

/-- **Reading integers until one fails.**  The text begins with numerals, and what follows them, if
anything, is no number. -/
theorem readInts_words {ws ws' : List (List Char)} {fuel : ℕ} (hfuel : cs.length ≤ fuel)
    (h : words isSpace cs = ws ++ ws') (hws : ∀ w ∈ ws, ∃ v, integer w = some v ∧ InInt32 v)
    (hws' : ∀ w ∈ ws'.head?, NoNumber w) : readInts fuel cs = ws.filterMap integer := by
  induction fuel generalizing cs ws with
  | zero =>
      have hnil := List.eq_nil_of_length_eq_zero (Nat.le_zero.mp hfuel)
      rw [hnil, words_nil] at h
      rw [(List.append_eq_nil_iff.mp h.symm).1]
      rfl
  | succ fuel ih =>
      cases ws with
      | nil =>
          have hnone := readInt_eq_none 0 (by rw [h]; exact hws')
          rw [readInts]
          split
          · rename_i heq
            rw [heq] at hnone
            cases hnone
          · rfl
      | cons w ws =>
          obtain ⟨⟨v, hv, hrange⟩, hrest⟩ := List.forall_mem_cons.mp hws
          obtain ⟨rest, hwords, hlen, hread⟩ := readInt_word 0 h hv
          rw [if_neg (not_lt.mpr hrange.1), if_neg (not_lt.mpr hrange.2)] at hread
          rw [readInts, hread, List.filterMap_cons_some hv]
          exact congrArg (v :: ·) (ih (by omega) hwords hrest)

/-- The third word is a numeral. -/
theorem thirdInt_words {line p c w : List Char} {n : ℕ} (v : ℤ)
    (h : words isSpace line = p :: c :: w :: ws) (hn : integer w = some (n : ℤ)) :
    thirdInt v line = if n ≤ 2147483647 then (n : ℤ) else 2147483647 := by
  obtain ⟨rest₁, hread₁, hwords₁⟩ := readWord_word h
  obtain ⟨rest₂, hread₂, hwords₂⟩ := readWord_word hwords₁
  obtain ⟨rest, -, -, hread⟩ := readInt_word v hwords₂ hn
  rw [thirdInt, hread₁, hread₂, hread, if_neg (by omega)]
  by_cases hle : n ≤ 2147483647
  · rw [if_neg (by omega), if_pos hle]
  · rw [if_pos (by omega), if_neg hle]

/-! ### A well-formed text -/

/-- The first word of a comment. -/
theorem isComment_words {line : List Char} (h : isComment line = true) :
    ∃ w ws, words isSpace line = w :: ws ∧ NoNumber w := by
  obtain ⟨tail, htail⟩ := exists_of_isComment h
  cases hwords : words isSpace line with
  | nil =>
      rw [dropWhile_eq_nil_of_words hwords] at htail
      cases htail
  | cons w ws =>
      obtain ⟨rest, hdrop, hne, -⟩ := dropWhile_words_cons hwords
      obtain ⟨c, w, rfl⟩ := List.exists_cons_of_ne_nil hne
      obtain rfl : c = 'c' := (List.cons.inj (hdrop.symm.trans htail)).1
      refine ⟨_, ws, rfl, fun x hx => ?_⟩
      obtain rfl : 'c' = x := Option.some.inj hx
      decide

theorem words_intercalate (lines : List (List Char)) :
    words isSpace (['\n'].intercalate lines) = lines.flatMap (words isSpace) := by
  induction lines with
  | nil => rfl
  | cons line lines ih =>
      cases lines with
      | nil => rw [List.intercalate_singleton, List.flatMap_cons, List.flatMap_nil, List.append_nil]
      | cons line' lines =>
          rw [List.intercalate_cons_cons, List.append_assoc, List.singleton_append,
            words_append (by decide), ih, ← List.flatMap_cons]

theorem isComment_of_head {line : List Char} (h : line.head? = some 'c') : isComment line = true := by
  cases line with
  | nil => cases h
  | cons c line =>
      obtain rfl := Option.some.inj h
      rfl

/-- A line without numbers in front of the header. -/
theorem after_of_skipped {line : List Char} (h : isComment line = true ∨ words isSpace line = []) :
    (isComment line = true ∨ IsBody line) ∧ lineInts line = [] := by
  by_cases hcomment : isComment line = true
  · exact ⟨.inl hcomment, if_pos hcomment⟩
  · have hblank := h.resolve_left hcomment
    refine ⟨.inr fun w hw => ?_, ?_⟩
    · rw [hblank] at hw
      exact absurd hw List.not_mem_nil
    · rw [lineInts, if_neg hcomment, hblank]
      rfl

/-- The header is the only line that begins with a `p`. -/
theorem head_ne_p {line : List Char} (h : isComment line = true ∨ IsBody line) :
    line.head? ≠ some 'p' := by
  intro hp
  cases line with
  | nil => cases hp
  | cons x line =>
      obtain rfl := Option.some.inj hp
      rcases h with hcomment | hbody
      · exact absurd hcomment (Bool.eq_false_iff.mp rfl)
      · obtain ⟨w, hw, hpw⟩ := exists_mem_words (List.mem_cons_self (a := 'p') (l := line))
          (show isSpace 'p' = false by decide)
        obtain ⟨v, hv⟩ := hbody w hw
        have hchar := mem_integer hv hpw
        exact absurd hchar (by decide)

/-- The numbers of a text are in the range of its variables. -/
theorem DimacsText.inInt32 (d : DimacsText) (h : d.nbVar ≤ 2147483647) :
    ∀ line ∈ d.after, ∀ l ∈ lineInts line, InInt32 l := by
  intro line hline l hl
  have hmem : l ∈ d.clauses.flatMap (· ++ [0]) := by
    rw [← d.closed]
    exact List.mem_flatMap.mpr ⟨line, hline, hl⟩
  obtain ⟨c, hc, hlc⟩ := List.mem_flatMap.mp hmem
  unfold InInt32
  rcases List.mem_append.mp hlc with hlit | hzero
  · have hbound := (d.literals c hc l hlit).2
    omega
  · rw [List.mem_singleton.mp hzero]
    omega

/-- **Reading the numbers of a line.** -/
theorem allInts_line {line : List Char} (h : isComment line = true ∨ IsBody line)
    (hrange : ∀ l ∈ lineInts line, InInt32 l) : allInts line = lineInts line := by
  unfold allInts
  by_cases hcomment : isComment line = true
  · obtain ⟨w, ws, hwords, hw⟩ := isComment_words hcomment
    rw [lineInts, if_pos hcomment]
    have hcut : words isSpace line = [] ++ w :: ws := hwords
    refine readInts_words le_rfl hcut (fun w hw => absurd hw List.not_mem_nil) ?_
    intro v hv
    rw [← Option.some.inj hv]
    exact hw
  · have hbody := h.resolve_left hcomment
    have hints : lineInts line = (words isSpace line).filterMap integer := if_neg hcomment
    rw [hints]
    refine readInts_words le_rfl (List.append_nil _).symm (fun w hw => ?_) fun w hw => ?_
    · obtain ⟨v, hv⟩ := hbody w hw
      refine ⟨v, hv, hrange v ?_⟩
      rw [hints]
      exact List.mem_filterMap.mpr ⟨w, hw, hv⟩
    · cases hw

/-- No number stands at the beginning of the header. -/
theorem allInts_header (d : DimacsText) : allInts d.header = [] := by
  obtain ⟨v, c, hwords, -⟩ := d.heading
  have hcut : words isSpace d.header = [] ++ [['p'], ['c', 'n', 'f'], v, c] := hwords
  refine readInts_words le_rfl hcut (fun w hw => absurd hw List.not_mem_nil) fun w hw x hx => ?_
  obtain rfl : ['p'] = w := Option.some.inj hw
  obtain rfl : 'p' = x := Option.some.inj hx
  decide

end HydraSAT.Lib
