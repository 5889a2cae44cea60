import HydraSAT.CubeGenCli.Reader
import HydraSAT.CubeGenerator.Reader
import HydraSAT.Master.CNFParser

/-!
# The three readers

A formula is read by the master, by `cube_gen` and by `cube-cli`, each with a reader of its own.

* `readers_agree_iff`: the well-formed texts that all three read as the grammar says.
-/

namespace HydraSAT.Readers

open HydraSAT.Lib HydraSAT.Master

/-- All three readers get the variables and the clauses of the text. -/
def ReadAlike (path : String) (junk : ℤ) (d : DimacsText) : Prop :=
  (∃ data, ParseCNF path (some d.text) = .ok data ∧ data.numVars = d.nbVar ∧ data.clauses = d.clauses) ∧
    CubeGenCli.parseCNF junk path (some d.text) = .ok ⟨d.nbVar, d.clauses⟩ ∧
    CubeGenerator.parseDIMACS d.text = .ok ⟨d.nbVar, d.clauses⟩

/-- The texts for it.  The first two readers take a line for a clause and drop empty clauses, the third
stops at a comment behind the header; a header must begin its line and be written with one blank. -/
structure Readable (d : DimacsText) : Prop where
  heading : ['p', ' ', 'c', 'n', 'f'] <+: d.header
  nbVar_pos : 1 ≤ d.nbVar
  nbVar_le : d.nbVar ≤ 1073741822
  short : ∀ line ∈ d.lines, byteLength line < bufferSize
  nonempty : ∀ c ∈ d.clauses, c ≠ []
  oneClause : ∀ line ∈ d.after.map lineInts, OneClause line
  fresh : StartsFresh false (d.after.map lineInts)
  early : ∀ l ∈ CubeGenerator.commented d, l = 0

theorem head_of_heading {d : DimacsText} (h : ['p', ' ', 'c', 'n', 'f'] <+: d.header) :
    d.header.head? = some 'p' := by
  obtain ⟨rest, hrest⟩ := h
  rw [← hrest]
  rfl

/-- The clauses of a text, line by line. -/
theorem lineClauses_iff (d : DimacsText) : lineClauses (d.after.map lineInts) = d.clauses ↔
    (∀ c ∈ d.clauses, c ≠ []) ∧ (∀ line ∈ d.after.map lineInts, OneClause line) ∧
      StartsFresh false (d.after.map lineInts) :=
  lineClauses_eq_iff (d.closed ▸ List.flatMap_def.symm) fun c hc l hl => (d.literals c hc l hl).1

/-- **Three readers, one formula**, exactly for these texts. -/
theorem readers_agree_iff {path : String} (hpath : ['.', 'c', 'n', 'f'] <:+ path.toList) (junk : ℤ)
    (d : DimacsText) : ReadAlike path junk d ↔ Readable d := by
  have hliterals : ∀ c ∈ d.clauses, ∀ l ∈ c, l ≠ 0 := fun c hc l hl => (d.literals c hc l hl).1
  constructor
  · rintro ⟨⟨data, hmaster, hvars, hclauses⟩, hgen, hcli⟩
    obtain ⟨hp, hpos, hle⟩ := CubeGenerator.header_of_parseDIMACS hcli
    have hrange := d.inInt32 (by omega)
    obtain ⟨hshort, hnumVars⟩ := numVars_of_ParseCNF hmaster
    have hheader : isHeader (scanned d.header) = true := by
      by_contra hno
      rw [if_neg fun hand => hno hand.1, hvars] at hnumVars
      omega
    rw [CubeGenCli.parseCNF_eq path d hrange] at hgen
    have hlines : lineClauses (d.after.map lineInts) = d.clauses :=
      congrArg CubeGenCli.Formula.clauses (Except.ok.inj hgen)
    obtain ⟨hne, hone, hfresh⟩ := (lineClauses_iff d).mp hlines
    rw [CubeGenerator.parseDIMACS_eq d hrange hp hpos hle] at hcli
    have hread : clausesOf [] (CubeGenerator.uncommented d) = d.clauses :=
      congrArg CubeGenerator.WeightedCNF.clauses (Except.ok.inj hcli)
    exact ⟨(isHeader_iff hp).mp hheader, hpos, hle, hshort, hne, hone, hfresh,
      (clausesOf_prefix_iff (CubeGenerator.uncommented_append d) hliterals hne).mp hread⟩
  · intro h
    have hp := head_of_heading h.heading
    have hpos := h.nbVar_pos
    have hle := h.nbVar_le
    have hrange := d.inInt32 (by omega)
    have hV : InInt32 d.nbVar := ⟨by omega, by omega⟩
    have hlines := (lineClauses_iff d).mpr ⟨h.nonempty, h.oneClause, h.fresh⟩
    have hread := (clausesOf_prefix_iff (CubeGenerator.uncommented_append d) hliterals h.nonempty).mpr
      h.early
    refine ⟨⟨_, ParseCNF_eq hpath d h.short ((isHeader_iff hp).mpr h.heading) hrange, if_pos hV, hlines⟩,
      ?_, ?_⟩
    · rw [CubeGenCli.parseCNF_eq path d hrange, if_pos hp, if_pos (by omega), hlines]
    · rw [CubeGenerator.parseDIMACS_eq d hrange hp hpos hle, hread]

/-- One clause on two lines. -/
def twoLines : DimacsText where
  before := []
  header := ['p', ' ', 'c', 'n', 'f', ' ', '2', ' ', '1']
  after := [['1'], ['2', ' ', '0']]
  nbVar := 2
  clauses := [[1, 2]]
  newline_free := by decide
  skipped := by decide
  heading := ⟨['2'], ['1'], by decide, by decide, by decide⟩
  body := fun line hline => .inr fun w hw => Option.isSome_iff_exists.mp (by
    revert line w
    decide)
  closed := by decide
  literals := by decide

/-- The first two readers cut the clause in two. -/
theorem twoLines_cut : ¬ReadAlike "a.cnf" 0 twoLines := by
  rintro ⟨-, hgen, -⟩
  have hcut : CubeGenCli.parseCNF 0 "a.cnf" (some twoLines.text) = .ok ⟨2, [[1], [2]]⟩ := by
    decide +kernel
  rw [hcut] at hgen
  have hclauses : [[1], [2]] = twoLines.clauses :=
    congrArg CubeGenCli.Formula.clauses (Except.ok.inj hgen)
  exact absurd hclauses (by decide)

/-- Two clauses on two lines, behind a comment. -/
def twoClauses : DimacsText where
  before := [['c', ' ', 'a']]
  header := ['p', ' ', 'c', 'n', 'f', ' ', '2', ' ', '2']
  after := [['1', ' ', '-', '2', ' ', '0'], ['2', ' ', '0']]
  nbVar := 2
  clauses := [[1, -2], [2]]
  newline_free := by decide
  skipped := by decide
  heading := ⟨['2'], ['2'], by decide, by decide, by decide⟩
  body := fun line hline => .inr fun w hw => Option.isSome_iff_exists.mp (by
    revert line w
    decide)
  closed := by decide
  literals := by decide

theorem readers_agree_iff_twoClauses : ReadAlike "a.cnf" 0 twoClauses := by
  have hlines : twoClauses.after.map lineInts = [[1, -2, 0], [2, 0]] := by decide
  refine (readers_agree_iff (by decide +kernel) 0 twoClauses).mpr ?_
  exact {
    heading := by decide
    nbVar_pos := by decide
    nbVar_le := by decide
    short := by decide +kernel
    nonempty := by decide
    oneClause := by
      rw [hlines]
      unfold OneClause
      decide
    fresh := by
      rw [hlines]
      simp [StartsFresh]
    early := by decide }

end HydraSAT.Readers
