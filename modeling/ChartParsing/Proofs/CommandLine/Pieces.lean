import ChartParsing.CommandLine.Run
import Mathlib

/-!
# Arguments as pieces in any order

The arguments after the program name are made of pieces: options, file names, and the start option
together with the argument after it, whatever that is.  A piece is known by the arguments at its
beginning, so they split into pieces in one way at most.

* `Splits args pieces rest`: `args` are the pieces and then `rest`.
* `piece?`: the first piece.  `splits_cons_iff`, `Splits.unique`: there is no other way to split.
* `readArguments_of_piece?`: what the reader does with the first piece.
* `readArguments_eq_help_iff`, `readArguments_eq_parse_iff`: what it makes of all of them.
* `ofArguments_of_pieces`: **the order of the pieces does not matter**, but for that of the start
  symbols, of which the last one counts.
-/

namespace ChartParsing.CommandLine

/-! ## Pieces -/

/-- What the arguments are made of. -/
inductive Piece where
  | help
  | chart
  | noTree
  | lowercase
  | start (symbol : String)
  | file (name : String)
deriving DecidableEq, Repr

namespace Piece

/-- The ways to write a piece.  What begins with a hyphen is not the name of a file. -/
def spellings : Piece → List (List String)
  | help => [["-h"], ["--help"]]
  | chart => [["-c"], ["--chart"]]
  | noTree => [["-t"], ["--no-tree"]]
  | lowercase => [["-l"], ["--lowercase"]]
  | start symbol => [["-s", symbol], ["--start", symbol]]
  | file name => if name.startsWith "-" then [] else [[name]]

/-- The start symbol of a piece. -/
def symbol? : Piece → Option String
  | start symbol => some symbol
  | help | chart | noTree | lowercase | file _ => none

/-- The file of a piece. -/
def file? : Piece → Option String
  | file name => some name
  | help | chart | noTree | lowercase | start _ => none

/-- The options after a piece. -/
def apply (flags : Flags) : Piece → Flags
  | help => flags
  | chart => { flags with chart := true }
  | noTree => { flags with tree := false }
  | lowercase => { flags with lowercase := true }
  | start symbol => { flags with start := some symbol }
  | file _ => flags

/-- The options that pieces stand for: the last start symbol, and each other option if it is
there. -/
def flagsOf (pieces : List Piece) : Flags where
  start := (pieces.filterMap symbol?).getLast?
  chart := decide (chart ∈ pieces)
  tree := decide (noTree ∉ pieces)
  lowercase := decide (lowercase ∈ pieces)

/-- Piece by piece, the options become those that all pieces stand for. -/
theorem foldl_apply (pieces : List Piece) (flags : Flags) :
    pieces.foldl apply flags =
      { start := (pieces.filterMap symbol?).getLast?.or flags.start
        chart := flags.chart || decide (chart ∈ pieces)
        tree := flags.tree && decide (noTree ∉ pieces)
        lowercase := flags.lowercase || decide (lowercase ∈ pieces) } := by
  induction pieces generalizing flags with
  | nil => simp
  | cons p pieces ih =>
    rw [List.foldl_cons, ih]
    cases p with
    | start symbol => cases h : (pieces.filterMap symbol?).getLast? <;>
        simp [apply, symbol?, List.getLast?_cons, h]
    | help | chart | noTree | lowercase | file => simp [apply, symbol?]

theorem foldl_apply_default (pieces : List Piece) :
    pieces.foldl apply .default = flagsOf pieces := by
  rw [foldl_apply, flagsOf]
  simp [Flags.default]

theorem flagsOf_of_perm {pieces pieces' : List Piece} (h : pieces'.Perm pieces)
    (hstart : pieces'.filterMap symbol? = pieces.filterMap symbol?) :
    flagsOf pieces' = flagsOf pieces := by
  simp only [flagsOf, hstart, h.mem_iff]

end Piece

/-! ## Splitting -/

open Piece

/-- The arguments are the pieces, one after the other, and then `rest`. -/
inductive Splits : List String → List Piece → List String → Prop
  | nil (args : List String) : Splits args [] args
  | cons {spelling args rest : List String} {p : Piece} {pieces : List Piece} :
      spelling ∈ p.spellings → Splits args pieces rest →
        Splits (spelling ++ args) (p :: pieces) rest

/-- The piece at the beginning of the arguments, if there is one, and the rest. -/
def piece? : List String → Option (Piece × List String)
  | [] => none
  | arg :: args =>
    if arg = "-h" ∨ arg = "--help" then some (help, args)
    else if arg = "-c" ∨ arg = "--chart" then some (chart, args)
    else if arg = "-t" ∨ arg = "--no-tree" then some (noTree, args)
    else if arg = "-l" ∨ arg = "--lowercase" then some (lowercase, args)
    else if arg = "-s" ∨ arg = "--start" then
      args.head?.map fun symbol => (start symbol, args.tail)
    else if arg.startsWith "-" then none
    else some (file arg, args)

theorem piece?_append {p : Piece} {spelling : List String} (h : spelling ∈ p.spellings)
    (args : List String) : piece? (spelling ++ args) = some (p, args) := by
  cases p with
  | file name =>
    rw [spellings] at h
    split at h
    · exact absurd h List.not_mem_nil
    · rename_i hname
      obtain rfl := List.mem_singleton.mp h
      -- Every option begins with a hyphen.
      have hne : ∀ option : String, option.startsWith "-" = true → name ≠ option := by
        rintro option hoption rfl
        exact hname hoption
      rw [List.singleton_append, piece?]
      iterate 5 rw [if_neg (not_or.mpr ⟨hne _ (by cbv), hne _ (by cbv)⟩)]
      rw [if_neg hname]
  | help | chart | noTree | lowercase | start =>
    simp only [spellings, List.mem_cons, List.not_mem_nil, or_false] at h
    rcases h with rfl | rfl <;> simp [piece?]

theorem exists_spelling_of_piece? {args rest : List String} {p : Piece}
    (h : piece? args = some (p, rest)) : ∃ spelling ∈ p.spellings, args = spelling ++ rest := by
  cases args with
  | nil => exact absurd h (by simp [piece?])
  | cons arg args =>
    rw [piece?] at h
    split_ifs at h with hhelp hchart htree hlowercase hstart hfile
    · cases h
      exact ⟨[arg], by simpa [spellings] using hhelp, rfl⟩
    · cases h
      exact ⟨[arg], by simpa [spellings] using hchart, rfl⟩
    · cases h
      exact ⟨[arg], by simpa [spellings] using htree, rfl⟩
    · cases h
      exact ⟨[arg], by simpa [spellings] using hlowercase, rfl⟩
    · cases args with
      | nil => exact absurd h (by simp)
      | cons symbol args =>
        cases h
        exact ⟨[arg, symbol], by simpa [spellings] using hstart, rfl⟩
    · cases h
      exact ⟨[arg], by simp [spellings, hfile], rfl⟩

variable {args rest : List String} {p : Piece} {pieces : List Piece}

theorem length_lt_of_piece? (h : piece? args = some (p, rest)) : rest.length < args.length := by
  obtain ⟨spelling, hspelling, rfl⟩ := exists_spelling_of_piece? h
  have hne : spelling ≠ [] := by
    rintro rfl
    cases p with
    | file name =>
      rw [spellings] at hspelling
      split at hspelling <;> simp at hspelling
    | help | chart | noTree | lowercase | start => simp [spellings] at hspelling
  rw [List.length_append]
  have := List.length_pos_iff.mpr hne
  omega

theorem splits_nil_iff : Splits args [] rest ↔ args = rest := by
  constructor
  · intro h
    cases h with
    | nil => rfl
  · rintro rfl
    exact .nil args

/-- **Arguments begin with one piece at most.** -/
theorem splits_cons_iff :
    Splits args (p :: pieces) rest ↔ ∃ m, piece? args = some (p, m) ∧ Splits m pieces rest := by
  constructor
  · intro h
    cases h with
    | cons hspelling hsplits => exact ⟨_, piece?_append hspelling _, hsplits⟩
  · rintro ⟨m, hpiece, hsplits⟩
    obtain ⟨spelling, hspelling, rfl⟩ := exists_spelling_of_piece? hpiece
    exact .cons hspelling hsplits

/-- No arguments are no pieces. -/
theorem splits_nil_left_iff : Splits [] pieces [] ↔ pieces = [] := by
  cases pieces with
  | nil => simp [splits_nil_iff]
  | cons p pieces => simp [splits_cons_iff, piece?]

theorem splits_append_iff {pieces' : List Piece} :
    Splits args (pieces ++ pieces') rest ↔ ∃ m, Splits args pieces m ∧ Splits m pieces' rest := by
  induction pieces generalizing args with
  | nil => simp only [List.nil_append, splits_nil_iff, exists_eq_left']
  | cons p pieces ih =>
    simp only [List.cons_append, splits_cons_iff, ih]
    constructor
    · rintro ⟨n, hpiece, m, hfirst, hlater⟩
      exact ⟨m, ⟨n, hpiece, hfirst⟩, hlater⟩
    · rintro ⟨m, ⟨n, hpiece, hfirst⟩, hlater⟩
      exact ⟨n, hpiece, m, hfirst, hlater⟩

/-- Arguments that begin with a piece split into it and pieces of the rest. -/
theorem exists_splits_iff {m : List String} (h : piece? args = some (p, m))
    {P : List Piece → Prop} :
    (∃ pieces, Splits args pieces [] ∧ P pieces) ↔
      ∃ pieces, Splits m pieces [] ∧ P (p :: pieces) := by
  constructor
  · rintro ⟨pieces, hsplits, hp⟩
    cases pieces with
    | nil =>
      obtain rfl := splits_nil_iff.mp hsplits
      exact absurd h (by simp [piece?])
    | cons q pieces =>
      obtain ⟨m', hpiece, hsplits⟩ := splits_cons_iff.mp hsplits
      obtain ⟨rfl, rfl⟩ := Prod.mk.inj (Option.some.inj (h.symm.trans hpiece))
      exact ⟨pieces, hsplits, hp⟩
  · rintro ⟨pieces, hsplits, hp⟩
    exact ⟨p :: pieces, splits_cons_iff.mpr ⟨m, h, hsplits⟩, hp⟩

/-- Arguments split into pieces in one way at most. -/
theorem Splits.unique {pieces' : List Piece} (h : Splits args pieces [])
    (h' : Splits args pieces' []) : pieces = pieces' := by
  induction pieces generalizing args pieces' with
  | nil =>
    obtain rfl := splits_nil_iff.mp h
    exact (splits_nil_left_iff.mp h').symm
  | cons p pieces ih =>
    obtain ⟨m, hpiece, hsplits⟩ := splits_cons_iff.mp h
    obtain ⟨qs, hqs, rfl⟩ := (exists_splits_iff hpiece).mp ⟨pieces', h', rfl⟩
    rw [ih hsplits hqs]

/-- After a number of pieces there is a help option. -/
def HelpAfter (args : List String) (pieces : List Piece) : Prop :=
  ∃ rest, Splits args (pieces ++ [help]) rest

theorem HelpAfter.piece?_ne_none (h : HelpAfter args pieces) : piece? args ≠ none := by
  obtain ⟨rest, hsplits⟩ := h
  obtain ⟨p, later, hpieces⟩ := List.exists_cons_of_ne_nil (List.concat_ne_nil help pieces)
  rw [hpieces] at hsplits
  obtain ⟨m, hpiece, -⟩ := splits_cons_iff.mp hsplits
  simp [hpiece]

/-- The help option comes first, or after the first piece. -/
theorem exists_helpAfter_iff {m : List String} (h : piece? args = some (p, m))
    {P : List Piece → Prop} :
    (∃ pieces, HelpAfter args pieces ∧ P pieces) ↔
      p = help ∧ P [] ∨ ∃ pieces, HelpAfter m pieces ∧ P (p :: pieces) := by
  constructor
  · rintro ⟨pieces, ⟨rest, hsplits⟩, hp⟩
    cases pieces with
    | nil =>
      obtain ⟨m', hpiece, -⟩ := splits_cons_iff.mp hsplits
      obtain ⟨rfl, -⟩ := Prod.mk.inj (Option.some.inj (h.symm.trans hpiece))
      exact .inl ⟨rfl, hp⟩
    | cons q pieces =>
      obtain ⟨m', hpiece, hsplits⟩ := splits_cons_iff.mp hsplits
      obtain ⟨rfl, rfl⟩ := Prod.mk.inj (Option.some.inj (h.symm.trans hpiece))
      exact .inr ⟨pieces, ⟨rest, hsplits⟩, hp⟩
  · rintro (⟨rfl, hp⟩ | ⟨pieces, ⟨rest, hsplits⟩, hp⟩)
    · exact ⟨[], ⟨m, splits_cons_iff.mpr ⟨m, h, .nil m⟩⟩, hp⟩
    · exact ⟨p :: pieces, ⟨rest, splits_cons_iff.mpr ⟨m, h, hsplits⟩⟩, hp⟩

/-- Arguments end, or begin with a piece, or go on with something else. -/
theorem pieces_induction {motive : List String → Prop} (nil : motive [])
    (stuck : ∀ args, args ≠ [] → piece? args = none → motive args)
    (piece : ∀ args p rest, piece? args = some (p, rest) → motive rest → motive args) :
    ∀ args, motive args := by
  intro args
  induction hn : args.length using Nat.strongRecOn generalizing args with
  | ind n ih =>
    cases hpiece : piece? args with
    | none =>
      cases args with
      | nil => exact nil
      | cons arg args => exact stuck _ (List.cons_ne_nil arg args) hpiece
    | some q =>
      have hlength : q.2.length < n := hn ▸ length_lt_of_piece? hpiece
      exact piece args q.1 q.2 hpiece (ih _ hlength _ rfl)

/-! ## Reading -/

variable {file : Option String} {flags : Flags}

/-- How the reader goes on after a piece. -/
def readAfter (file : Option String) (flags : Flags) (rest : List String) :
    Piece → Except ArgumentError Request
  | help => .ok .help
  | .file name => if file.isNone then readArguments (some name) flags rest else .error .invalid
  | p => readArguments file (p.apply flags) rest

/-- **The reader takes the first piece.** -/
theorem readArguments_of_piece? (h : piece? args = some (p, rest)) :
    readArguments file flags args = readAfter file flags rest p := by
  cases args with
  | nil => exact absurd h (by simp [piece?])
  | cons arg args =>
    rw [piece?] at h
    rw [readArguments.eq_def]
    dsimp only
    split_ifs at h with hhelp hchart htree hlowercase hstart hhyphen
    · cases h
      rw [if_pos hhelp]
      rfl
    · cases h
      rw [if_neg hhelp, if_pos hchart]
      rfl
    · cases h
      rw [if_neg hhelp, if_neg hchart, if_pos htree]
      rfl
    · cases h
      rw [if_neg hhelp, if_neg hchart, if_neg htree, if_pos hlowercase]
      rfl
    · rw [if_neg hhelp, if_neg hchart, if_neg htree, if_neg hlowercase, if_pos hstart]
      cases args with
      | nil => exact absurd h (by simp)
      | cons symbol args =>
        cases h
        rfl
    · cases h
      rw [if_neg hhelp, if_neg hchart, if_neg htree, if_neg hlowercase, if_neg hstart, readAfter]
      simp [hhyphen]

/-- The reader refuses what does not begin with a piece. -/
theorem readArguments_of_stuck (hne : args ≠ []) (h : piece? args = none) :
    ∃ e, readArguments file flags args = .error e := by
  cases args with
  | nil => exact absurd rfl hne
  | cons arg args =>
    rw [piece?] at h
    rw [readArguments.eq_def]
    dsimp only
    split_ifs at h with hhelp hchart htree hlowercase hstart hhyphen
    · rw [if_neg hhelp, if_neg hchart, if_neg htree, if_neg hlowercase, if_pos hstart]
      cases args with
      | nil => exact ⟨.missingStart, rfl⟩
      | cons symbol args => exact absurd h (by simp)
    · rw [if_neg hhelp, if_neg hchart, if_neg htree, if_neg hlowercase, if_neg hstart]
      exact ⟨.invalid, by simp [hhyphen]⟩

/-- **Help is asked for** by a help option that is reached before anything else than a piece and
before a second file. -/
theorem readArguments_eq_help_iff :
    readArguments file flags args = .ok .help ↔
      ∃ pieces, HelpAfter args pieces ∧ (file.toList ++ pieces.filterMap file?).length ≤ 1 := by
  induction args using pieces_induction generalizing file flags with
  | nil =>
    refine iff_of_false ?_ ?_
    · cases file <;> simp [readArguments]
    · rintro ⟨pieces, hhelp, -⟩
      exact hhelp.piece?_ne_none rfl
  | stuck args hne h =>
    obtain ⟨e, he⟩ : ∃ e, readArguments file flags args = .error e := readArguments_of_stuck hne h
    refine iff_of_false (by simp [he]) ?_
    rintro ⟨pieces, hhelp, -⟩
    exact hhelp.piece?_ne_none h
  | piece args p rest h ih =>
    rw [readArguments_of_piece? h, exists_helpAfter_iff h]
    cases p with
    | help => simp [readAfter]
    | file name =>
      cases file with
      | none => simp [readAfter, ih, file?]
      | some f => simp [readAfter, file?]
    | chart | noTree | lowercase | start => simp [readAfter, ih, List.filterMap_cons, file?]

/-- **A file is to be parsed** if all arguments are pieces, there is no help option among them, and
they hold one file. -/
theorem readArguments_eq_parse_iff {f : String} {flags' : Flags} :
    readArguments file flags args = .ok (.parse f flags') ↔
      ∃ pieces, Splits args pieces [] ∧ help ∉ pieces ∧
        file.toList ++ pieces.filterMap file? = [f] ∧ flags' = pieces.foldl apply flags := by
  induction args using pieces_induction generalizing file flags with
  | nil =>
    simp only [splits_nil_left_iff, exists_eq_left]
    cases file with
    | none => simp [readArguments]
    | some name => simp [readArguments, eq_comm]
  | stuck args hne h =>
    obtain ⟨e, he⟩ : ∃ e, readArguments file flags args = .error e := readArguments_of_stuck hne h
    refine iff_of_false (by simp [he]) ?_
    rintro ⟨pieces, hsplits, -⟩
    cases pieces with
    | nil => exact hne (splits_nil_iff.mp hsplits)
    | cons p pieces =>
      obtain ⟨m, hpiece, -⟩ := splits_cons_iff.mp hsplits
      exact absurd (hpiece.symm.trans h) (by simp)
  | piece args p rest h ih =>
    rw [readArguments_of_piece? h, exists_splits_iff h]
    cases p with
    | help => simp [readAfter]
    | file name =>
      cases file with
      | none => simp [readAfter, ih, file?, apply]
      | some f => simp [readAfter, file?]
    | chart | noTree | lowercase | start => simp [readAfter, ih, List.filterMap_cons, file?]

/-! ## Argument vectors -/

/-- A help option is reached before anything else than a piece and before a second file. -/
def AsksForHelp (args : List String) : Prop :=
  ∃ pieces, HelpAfter args pieces ∧ (pieces.filterMap file?).length ≤ 1

theorem asksForHelp_of_mem {f : String} (h : Splits args pieces []) (hhelp : help ∈ pieces)
    (hfile : pieces.filterMap file? = [f]) : AsksForHelp args := by
  obtain ⟨before, after, rfl⟩ := List.append_of_mem hhelp
  rw [← List.singleton_append, ← List.append_assoc] at h
  obtain ⟨m, hbefore, -⟩ := splits_append_iff.mp h
  refine ⟨before, ⟨m, hbefore⟩, ?_⟩
  have hlength := congrArg List.length hfile
  rw [List.filterMap_append, List.length_append, List.length_singleton] at hlength
  omega

/-- The program name says nothing about the request. -/
theorem ofArguments_eq_ok_iff {arguments : List String} {r : Request} :
    Request.ofArguments arguments = .ok r ↔ readArguments none .default arguments.tail = .ok r := by
  match arguments with
  | [] => simp [Request.ofArguments, readArguments]
  | [_] => simp [Request.ofArguments, readArguments]
  | _ :: _ :: _ => rfl

theorem ofArguments_eq_parse_iff {arguments : List String} {f : String} :
    Request.ofArguments arguments = .ok (.parse f flags) ↔ ∃ pieces,
      Splits arguments.tail pieces [] ∧ help ∉ pieces ∧ pieces.filterMap file? = [f] ∧
        flags = flagsOf pieces := by
  simp only [ofArguments_eq_ok_iff, readArguments_eq_parse_iff, foldl_apply_default]
  rfl

theorem run_of_help {arguments : List String} (h : Request.ofArguments arguments = .ok .help)
    (readFile : String → Except ReadError ByteArray) (input : List UInt8) :
    run arguments readFile input = ⟨0, usage (programName arguments) ++ "\n", ""⟩ := by
  rw [run, program, h]
  exact congrArg (Outcome.mk 0 · "") String.empty_append

/-- **Arguments are pieces in any order.**  If a help option is reached before anything else than a
piece and before a second file, then the program prints the usage text and ends with exit code 0.
Otherwise the arguments are accepted just if all of them are pieces with one file among them.  Then
this file is parsed; the last start symbol counts, and each other option holds if it is there.  So
the pieces can be put in another order, as long as that of the start symbols stays. -/
theorem ofArguments_of_pieces (arguments : List String) :
    (Request.ofArguments arguments = .ok .help ↔ AsksForHelp arguments.tail) ∧
    (AsksForHelp arguments.tail → ∀ readFile input,
      run arguments readFile input = ⟨0, usage (programName arguments) ++ "\n", ""⟩) ∧
    (¬ AsksForHelp arguments.tail → ∀ f flags,
      Request.ofArguments arguments = .ok (.parse f flags) ↔ ∃ pieces,
        Splits arguments.tail pieces [] ∧ pieces.filterMap file? = [f] ∧ flags = flagsOf pieces) ∧
    ∀ f flags pieces, Request.ofArguments arguments = .ok (.parse f flags) →
      Splits arguments.tail pieces [] → ∀ arguments' pieces', Splits arguments'.tail pieces' [] →
        pieces'.Perm pieces → pieces'.filterMap symbol? = pieces.filterMap symbol? →
          Request.ofArguments arguments' = .ok (.parse f flags) := by
  have hhelp : Request.ofArguments arguments = .ok .help ↔ AsksForHelp arguments.tail :=
    ofArguments_eq_ok_iff.trans readArguments_eq_help_iff
  refine ⟨hhelp, ?_, ?_, ?_⟩
  · intro hasks readFile input
    exact run_of_help (hhelp.mpr hasks) readFile input
  · intro hasks f flags
    rw [ofArguments_eq_parse_iff]
    constructor
    · rintro ⟨pieces, hsplits, -, hfile, hflags⟩
      exact ⟨pieces, hsplits, hfile, hflags⟩
    · rintro ⟨pieces, hsplits, hfile, hflags⟩
      exact ⟨pieces, hsplits, fun hmem => hasks (asksForHelp_of_mem hsplits hmem hfile), hfile,
        hflags⟩
  · intro f flags pieces hparse hsplits arguments' pieces' hsplits' hperm hstart
    obtain ⟨pieces, hfound, hno, hfile, rfl⟩ := ofArguments_eq_parse_iff.mp hparse
    obtain rfl := hfound.unique hsplits
    refine ofArguments_eq_parse_iff.mpr ⟨pieces', hsplits', fun hmem => hno (hperm.mem_iff.mp hmem),
      ?_, (flagsOf_of_perm hperm hstart).symm⟩
    have hfiles := hperm.filterMap file?
    rw [hfile, List.perm_singleton] at hfiles
    exact hfiles

/-- After `-s`, the argument `-h` is a start symbol.  It does not count if there is another one
after it, wherever the other pieces are. -/
theorem ofArguments_reordered :
    AsksForHelp ["g", "-h", "f"] ∧
    (∀ readFile input, run ["cyk", "g", "-h", "f"] readFile input = ⟨0, usage "cyk" ++ "\n", ""⟩) ∧
    ¬ AsksForHelp ["-s", "-h", "g", "-l", "--start", "NP"] ∧
    Splits ["-s", "-h", "g", "-l", "--start", "NP"]
      [start "-h", .file "g", lowercase, start "NP"] [] ∧
    Request.ofArguments ["cyk", "-s", "-h", "g", "-l", "--start", "NP"] =
      .ok (.parse "g" ⟨some "NP", false, true, true⟩) ∧
    Request.ofArguments ["cyk", "--lowercase", "--start", "-h", "-s", "NP", "g"] =
      .ok (.parse "g" ⟨some "NP", false, true, true⟩) := by
  obtain ⟨-, husage, -, -⟩ := ofArguments_of_pieces ["cyk", "g", "-h", "f"]
  obtain ⟨hhelp, -, hparse, hreorder⟩ :=
    ofArguments_of_pieces ["cyk", "-s", "-h", "g", "-l", "--start", "NP"]
  have hfile : ["g"] ∈ (Piece.file "g").spellings := by
    have hname : "g".startsWith "-" = false := by cbv
    simp [spellings, hname]
  have hasks : AsksForHelp ["g", "-h", "f"] :=
    ⟨[.file "g"], ⟨["f"], .cons hfile (splits_cons_iff.mpr ⟨["f"], rfl, .nil _⟩)⟩, by decide⟩
  have hsplits : Splits ["-s", "-h", "g", "-l", "--start", "NP"]
      [start "-h", .file "g", lowercase, start "NP"] [] :=
    splits_cons_iff.mpr ⟨_, rfl, .cons hfile (splits_cons_iff.mpr ⟨_, rfl,
      splits_cons_iff.mpr ⟨_, rfl, .nil _⟩⟩)⟩
  have hsplits' : Splits ["--lowercase", "--start", "-h", "-s", "NP", "g"]
      [lowercase, start "-h", start "NP", .file "g"] [] :=
    splits_cons_iff.mpr ⟨_, rfl, splits_cons_iff.mpr ⟨_, rfl, splits_cons_iff.mpr ⟨_, rfl,
      .cons hfile (.nil _)⟩⟩⟩
  have hno : ¬ AsksForHelp ["-s", "-h", "g", "-l", "--start", "NP"] := by
    have hok : Request.ofArguments ["cyk", "-s", "-h", "g", "-l", "--start", "NP"] =
        .ok (.parse "g" ⟨some "NP", false, true, true⟩) := by cbv
    intro hasks
    exact absurd (hok.symm.trans (hhelp.mpr hasks)) (by simp)
  have hok := (hparse hno "g" _).mpr ⟨_, hsplits, rfl, rfl⟩
  exact ⟨hasks, husage hasks, hno, hsplits, hok,
    hreorder _ _ _ hok hsplits _ _ hsplits' (by decide) rfl⟩

end ChartParsing.CommandLine
