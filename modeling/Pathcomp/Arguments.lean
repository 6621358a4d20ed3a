import Pathcomp.Standalone

set_option autoImplicit false

/-!
# The command line

`opt_new` takes the arguments apart with `getopt`, which goes through them letter by
letter and moves those that are no options to the end. `Reads` says what a command
line consists of; the loop is shown to do what its parts stand for.
-/
namespace Pathcomp.Arguments
open Bytes CommandLine Standalone

/-- What `getopt` keeps between two calls: the letters that follow in the present
    argument, the arguments after it, and those it has passed over. -/
structure Scan where
  nextchar : Text
  rest : List Text
  operands : List Text

/-- The results beside -1; `unknown` is `'?'` and `missing` is `':'`. -/
inductive Opt where
  | flag (c : UInt8)
  | argument (c : UInt8) (optarg : Text)
  | unknown (optopt : UInt8)
  | missing (optopt : UInt8)

def optstring : Text := ascii ":ac:ef:hmx:"

/-- Whether the option takes an argument, if there is such an option. -/
def takesArgument (c : UInt8) : Option Bool :=
  if c = byte ':' ∨ c = byte ';' then none
  else (strchr optstring c).map fun i => decide (optstring[i + 1]? = some (byte ':'))

/-- The letters of an argument that starts with a dash and is no single dash. -/
def optionChars : Text → Option (UInt8 × Text)
  | b :: c :: more => if b = byte '-' then some (c, more) else none
  | _ => none

/-- The next argument with options, unless there is none. A double dash ends the
    search; without permutation the first operand does so too. -/
def nextElement (permute : Bool) :
    List Text → List Text → Option (UInt8 × Text × List Text) × List Text
  | [], operands => (none, operands)
  | arg :: rest, operands =>
    if arg = ascii "--" then (none, operands ++ rest)
    else
      match optionChars arg with
      | some (c, more) => (some (c, more, rest), operands)
      | none =>
        if permute then nextElement permute rest (operands ++ [arg])
        else (none, operands ++ arg :: rest)

def getoptChar (c : UInt8) (nextchar : Text) (rest operands : List Text) : Opt × Scan :=
  match takesArgument c with
  | none => (.unknown c, ⟨nextchar, rest, operands⟩)
  | some false => (.flag c, ⟨nextchar, rest, operands⟩)
  | some true =>
    if nextchar ≠ [] then (.argument c nextchar, ⟨[], rest, operands⟩)
    else
      match rest with
      | [] => (.missing c, ⟨[], [], operands⟩)
      | optarg :: rest => (.argument c optarg, ⟨[], rest, operands⟩)

def getopt (permute : Bool) (scan : Scan) : Option Opt × Scan :=
  match scan.nextchar with
  | c :: more =>
    let (opt, scan) := getoptChar c more scan.rest scan.operands
    (some opt, scan)
  | [] =>
    match nextElement permute scan.rest scan.operands with
    | (none, operands) => (none, ⟨[], [], operands⟩)
    | (some (c, more, rest), operands) =>
      let (opt, scan) := getoptChar c more rest operands
      (some opt, scan)

def usage : Text := ascii <|
  "Usage\n" ++
  "    pathcomp -c class [ -f config -aehm -x att ] key=value key=value key+=value ...\n" ++
  "\n" ++
  "Mandatory command-line arguments\n" ++
  "    -c class: use this locator class\n" ++
  "\n" ++
  "Options\n" ++
  "    -a: print all pathnames (default: print first)\n" ++
  "    -e: print only existing pathnames (default: print any pathname)\n" ++
  "    -f config: use config file 'config' (default: .pathcomprc)\n" ++
  "    -h: display this information\n" ++
  "    -m: create parent directory recursively\n" ++
  "    -x att: evaluate and print attribute 'att' instead of pathname\n" ++
  "\n" ++
  "Attributes\n" ++
  "    key=value: set attribute 'key' to 'value'\n" ++
  "    key+=value: add value 'value' to attribute 'key'\n"

/-- The record while the options are read. -/
structure Draft where
  className : Option Text
  printAll : Bool
  onlyExisting : Bool
  configFile : Text
  doMkdir : Bool
  evalAtt : Option Text

def initialDraft : Draft := ⟨none, false, false, ascii ".pathcomprc", false, none⟩

/-- `opt_new` returns the options or ends the program. -/
inductive Start where
  | options (options : Options)
  | exit (status : ℕ) (out : List Output)

def exitSuccess : ℕ := 0

def exitFailure : ℕ := 1

def helpExit : Start := .exit exitSuccess [.puts usage]

def errorExit (message : Text) : Start := .exit exitFailure [.logError message, .puts usage]

def unknownExit (c : UInt8) : Start := errorExit (ascii "invalid option '" ++ [c] ++ ascii "'")

def missingExit (c : UInt8) : Start :=
  errorExit (ascii "missing argument for option '" ++ [c] ++ ascii "'")

def classExit : Start := errorExit (ascii "class name (argument to option '-c') is mandatory")

inductive Scanned where
  | stopped (start : Start)
  | finished (draft : Draft) (operands : List Text)

/-- The loop over the options, with a bound on its rounds. -/
def optLoop (permute : Bool) : ℕ → Scan → Draft → Except Halt Scanned
  | 0, _, _ => .error .bound
  | fuel + 1, scan, draft =>
    match getopt permute scan with
    | (none, scan) => .ok (.finished draft scan.operands)
    | (some (.flag c), scan) =>
      if c = byte 'a' then optLoop permute fuel scan { draft with printAll := true }
      else if c = byte 'e' then optLoop permute fuel scan { draft with onlyExisting := true }
      else if c = byte 'h' then .ok (.stopped helpExit)
      else if c = byte 'm' then optLoop permute fuel scan { draft with doMkdir := true }
      else .error .assertion
    | (some (.argument c optarg), scan) =>
      if c = byte 'c' then optLoop permute fuel scan { draft with className := some optarg }
      else if c = byte 'f' then optLoop permute fuel scan { draft with configFile := optarg }
      else if c = byte 'x' then optLoop permute fuel scan { draft with evalAtt := some optarg }
      else .error .assertion
    | (some (.unknown optopt), _) => .ok (.stopped (unknownExit optopt))
    | (some (.missing optopt), _) => .ok (.stopped (missingExit optopt))

/-- Every call of `getopt` but the last takes at least one letter. -/
def letters (argv : List Text) : ℕ := (argv.map fun arg => arg.length + 1).sum

def Draft.complete (draft : Draft) (operands : List Text) : Except Halt Start :=
  match draft.className with
  | none => .ok classExit
  | some className =>
    match kvList operands with
    | .error halt => .error halt
    | .ok attributes =>
      .ok (.options ⟨className, attributes, draft.printAll, draft.onlyExisting, draft.configFile,
        draft.doMkdir, draft.evalAtt⟩)

def optNew (permute : Bool) (argv : List Text) : Except Halt Start :=
  match optLoop permute (letters argv + 1) ⟨[], argv, []⟩ initialDraft with
  | .error halt => .error halt
  | .ok (.stopped start) => .ok start
  | .ok (.finished draft operands) => draft.complete operands

def flagLetters : Text := ascii "aehm"

def argumentLetters : Text := ascii "cfx"

inductive Setting where
  | flag (c : UInt8)
  | argument (c : UInt8) (value : Text)

/-- What follows the options that are understood. -/
inductive Ending where
  | operands (texts : List Text)
  | unknown (c : UInt8)
  | missing (c : UInt8)

def Ending.after (text : Text) : Ending → Ending
  | .operands texts => .operands (text :: texts)
  | .unknown c => .unknown c
  | .missing c => .missing c

/-- The command line has these settings in this order, and this ending. Flags may share
    an argument with each other and with one option that takes a value. -/
inductive Reads (permute : Bool) : List Text → List Setting → Ending → Prop where
  | nil : Reads permute [] [] (.operands [])
  | dashes (rest : List Text) : Reads permute (ascii "--" :: rest) [] (.operands rest)
  | first {text : Text} (rest : List Text) (hp : permute = false) (ht : optionChars text = none) :
      Reads permute (text :: rest) [] (.operands (text :: rest))
  | operand {text : Text} {rest : List Text} {settings : List Setting} {ending : Ending}
      (hp : permute = true) (ht : optionChars text = none)
      (tail : Reads permute rest settings ending) :
      Reads permute (text :: rest) settings (ending.after text)
  | flags {flags : Text} {rest : List Text} {settings : List Setting} {ending : Ending}
      (hne : flags ≠ []) (hf : ∀ c ∈ flags, c ∈ flagLetters)
      (tail : Reads permute rest settings ending) :
      Reads permute ((byte '-' :: flags) :: rest) (flags.map .flag ++ settings) ending
  | attached {flags value : Text} {c : UInt8} {rest : List Text} {settings : List Setting}
      {ending : Ending} (hf : ∀ c ∈ flags, c ∈ flagLetters) (hc : c ∈ argumentLetters)
      (hv : value ≠ []) (tail : Reads permute rest settings ending) :
      Reads permute ((byte '-' :: (flags ++ c :: value)) :: rest)
        (flags.map .flag ++ .argument c value :: settings) ending
  | detached {flags value : Text} {c : UInt8} {rest : List Text} {settings : List Setting}
      {ending : Ending} (hf : ∀ c ∈ flags, c ∈ flagLetters) (hc : c ∈ argumentLetters)
      (tail : Reads permute rest settings ending) :
      Reads permute ((byte '-' :: (flags ++ [c])) :: value :: rest)
        (flags.map .flag ++ .argument c value :: settings) ending
  | unknown {flags more : Text} {c : UInt8} (rest : List Text)
      (hf : ∀ c ∈ flags, c ∈ flagLetters) (hc : c ∉ flagLetters ++ argumentLetters)
      (hd : byte '-' :: (flags ++ c :: more) ≠ ascii "--") :
      Reads permute ((byte '-' :: (flags ++ c :: more)) :: rest) (flags.map .flag) (.unknown c)
  | missing {flags : Text} {c : UInt8} (hf : ∀ c ∈ flags, c ∈ flagLetters)
      (hc : c ∈ argumentLetters) :
      Reads permute [byte '-' :: (flags ++ [c])] (flags.map .flag) (.missing c)

def Setting.isFlag (letter : UInt8) : Setting → Bool
  | .flag c => c = letter
  | .argument _ _ => false

def Setting.valueFor (letter : UInt8) : Setting → Option Text
  | .flag _ => none
  | .argument c value => if c = letter then some value else none

def given (letter : UInt8) (settings : List Setting) : Bool := settings.any (Setting.isFlag letter)

/-- The value of an option that may be given several times. -/
def lastValue (letter : UInt8) (settings : List Setting) : Option Text :=
  (settings.filterMap (Setting.valueFor letter)).getLast?

/-- What the program should make of the command line. -/
def outcome (settings : List Setting) : Ending → Except Halt Start
  | .operands texts =>
    if given (byte 'h') settings then .ok helpExit
    else
      Draft.complete ⟨lastValue (byte 'c') settings, given (byte 'a') settings,
        given (byte 'e') settings, (lastValue (byte 'f') settings).getD (ascii ".pathcomprc"),
        given (byte 'm') settings, lastValue (byte 'x') settings⟩ texts
  | .unknown c => if given (byte 'h') settings then .ok helpExit else .ok (unknownExit c)
  | .missing c => if given (byte 'h') settings then .ok helpExit else .ok (missingExit c)

theorem takesArgument_flag {c : UInt8} (h : c ∈ flagLetters) : takesArgument c = some false := by
  simp only [flagLetters, show ascii "aehm" = [byte 'a', byte 'e', byte 'h', byte 'm'] from rfl,
    List.mem_cons, List.not_mem_nil, or_false] at h
  rcases h with rfl | rfl | rfl | rfl
  all_goals decide

theorem takesArgument_argument {c : UInt8} (h : c ∈ argumentLetters) :
    takesArgument c = some true := by
  simp only [argumentLetters, show ascii "cfx" = [byte 'c', byte 'f', byte 'x'] from rfl,
    List.mem_cons, List.not_mem_nil, or_false] at h
  rcases h with rfl | rfl | rfl
  all_goals decide

theorem strchr_none {s : Text} {c : UInt8} (h : c ∉ s) : strchr s c = none := by
  induction s with
  | nil => rfl
  | cons b s ih =>
    rw [List.mem_cons, not_or] at h
    rw [strchr, if_neg (Ne.symm h.1), ih h.2]
    rfl

theorem takesArgument_unknown {c : UInt8} (h : c ∉ flagLetters ++ argumentLetters) :
    takesArgument c = none := by
  unfold takesArgument
  split
  · rfl
  · rename_i hc
    rw [not_or] at hc
    rw [strchr_none, Option.map_none]
    -- the letters of the string, with those of the colons
    have hsub : ∀ d ∈ optstring, d ∈ flagLetters ++ argumentLetters ∨
        d = byte ':' := by decide
    intro hm
    rcases hsub c hm with hd | hd
    · exact h hd
    · exact hc.1 hd

def Setting.apply (draft : Draft) : Setting → Draft
  | .flag c =>
    if c = byte 'a' then { draft with printAll := true }
    else if c = byte 'e' then { draft with onlyExisting := true }
    else if c = byte 'm' then { draft with doMkdir := true }
    else draft
  | .argument c value =>
    if c = byte 'c' then { draft with className := some value }
    else if c = byte 'f' then { draft with configFile := value }
    else if c = byte 'x' then { draft with evalAtt := some value }
    else draft

/-- How the loop ends when it starts with this draft and these operands. -/
def finish (draft : Draft) (settings : List Setting) (operands : List Text) :
    Ending → Except Halt Scanned
  | .operands texts =>
    if given (byte 'h') settings then .ok (.stopped helpExit)
    else .ok (.finished (settings.foldl Setting.apply draft) (operands ++ texts))
  | .unknown c =>
    if given (byte 'h') settings then .ok (.stopped helpExit) else .ok (.stopped (unknownExit c))
  | .missing c =>
    if given (byte 'h') settings then .ok (.stopped helpExit) else .ok (.stopped (missingExit c))

section Steps
variable (permute : Bool) (fuel : ℕ) (rest operands : List Text) (draft : Draft)

theorem loop_flag {c : UInt8} (hc : c ∈ flagLetters) (more : Text) :
    optLoop permute (fuel + 1) ⟨c :: more, rest, operands⟩ draft =
      if c = byte 'h' then .ok (.stopped helpExit)
      else optLoop permute fuel ⟨more, rest, operands⟩ (Setting.apply draft (.flag c)) := by
  have hget : getopt permute ⟨c :: more, rest, operands⟩ =
      (some (.flag c), ⟨more, rest, operands⟩) := by
    simp only [getopt, getoptChar, takesArgument_flag hc]
  rw [optLoop, hget]
  simp only [flagLetters, show ascii "aehm" = [byte 'a', byte 'e', byte 'h', byte 'm'] from rfl,
    List.mem_cons, List.not_mem_nil, or_false] at hc
  rcases hc with rfl | rfl | rfl | rfl
  all_goals rfl

theorem loop_flags {flags : Text} (hf : ∀ c ∈ flags, c ∈ flagLetters) (more : Text) :
    optLoop permute (flags.length + fuel) ⟨flags ++ more, rest, operands⟩ draft =
      if given (byte 'h') (flags.map .flag) then .ok (.stopped helpExit)
      else optLoop permute fuel ⟨more, rest, operands⟩
        ((flags.map .flag).foldl Setting.apply draft) := by
  induction flags generalizing draft with
  | nil =>
    rw [List.length_nil, Nat.zero_add]
    rfl
  | cons c flags ih =>
    have hrest := ih (Setting.apply draft (.flag c)) fun d hd => hf d (List.mem_cons_of_mem c hd)
    rw [List.length_cons, show flags.length + 1 + fuel = flags.length + fuel + 1 by omega,
      List.cons_append, loop_flag permute _ rest operands draft (hf c List.mem_cons_self)]
    by_cases hh : c = byte 'h'
    · subst hh
      rfl
    · have hgiven : given (byte 'h') ((c :: flags).map .flag) =
          given (byte 'h') (flags.map .flag) := by
        simp [given, Setting.isFlag, hh]
      rw [if_neg hh, hrest, hgiven, List.map_cons, List.foldl_cons]

theorem loop_argument {c : UInt8} (hc : c ∈ argumentLetters) {nextchar value : Text}
    {rest' : List Text} (hvalue : getoptChar c nextchar rest operands =
      (.argument c value, ⟨[], rest', operands⟩)) :
    optLoop permute (fuel + 1) ⟨c :: nextchar, rest, operands⟩ draft =
      optLoop permute fuel ⟨[], rest', operands⟩ (Setting.apply draft (.argument c value)) := by
  have hget : getopt permute ⟨c :: nextchar, rest, operands⟩ =
      (some (.argument c value), ⟨[], rest', operands⟩) := by
    simp only [getopt, hvalue]
  rw [optLoop, hget]
  simp only [argumentLetters, show ascii "cfx" = [byte 'c', byte 'f', byte 'x'] from rfl,
    List.mem_cons, List.not_mem_nil, or_false] at hc
  rcases hc with rfl | rfl | rfl
  all_goals rfl

theorem loop_unknown {c : UInt8} (hc : c ∉ flagLetters ++ argumentLetters) (more : Text) :
    optLoop permute (fuel + 1) ⟨c :: more, rest, operands⟩ draft =
      .ok (.stopped (unknownExit c)) := by
  have hget : getopt permute ⟨c :: more, rest, operands⟩ =
      (some (.unknown c), ⟨more, rest, operands⟩) := by
    simp only [getopt, getoptChar, takesArgument_unknown hc]
  rw [optLoop, hget]

theorem loop_missing {c : UInt8} (hc : c ∈ argumentLetters) :
    optLoop permute (fuel + 1) ⟨[c], [], operands⟩ draft = .ok (.stopped (missingExit c)) := by
  have hget : getopt permute ⟨[c], [], operands⟩ =
      (some (.missing c), ⟨[], [], operands⟩) := by
    simp [getopt, getoptChar, takesArgument_argument hc]
  rw [optLoop, hget]

theorem loop_enter {c : UInt8} {more : Text} (h : byte '-' :: c :: more ≠ ascii "--") :
    optLoop permute (fuel + 1) ⟨[], (byte '-' :: c :: more) :: rest, operands⟩ draft =
      optLoop permute (fuel + 1) ⟨c :: more, rest, operands⟩ draft := by
  have hget : getopt permute ⟨[], (byte '-' :: c :: more) :: rest, operands⟩ =
      getopt permute ⟨c :: more, rest, operands⟩ := by
    simp only [getopt, nextElement, if_neg h, optionChars, ↓reduceIte]
  rw [optLoop, optLoop, hget]

end Steps

theorem ne_dashes_of_operand {text : Text} (h : optionChars text = none) : text ≠ ascii "--" := by
  rintro rfl
  cases h

theorem ne_dashes_of_letter {c : UInt8} (hc : c ∈ flagLetters ++ argumentLetters) (more : Text) :
    byte '-' :: c :: more ≠ ascii "--" := by
  intro he
  have hdash : c = byte '-' := (List.cons.inj (List.cons.inj he).2).1
  subst hdash
  exact absurd hc (by decide)

theorem loop_cluster (permute : Bool) {fuel : ℕ} (rest operands : List Text) (draft : Draft)
    {flags tail : Text} (hf : ∀ c ∈ flags, c ∈ flagLetters)
    (hd : byte '-' :: (flags ++ tail) ≠ ascii "--") (hne : flags ++ tail ≠ [])
    (hfuel : flags.length < fuel) :
    optLoop permute fuel ⟨[], (byte '-' :: (flags ++ tail)) :: rest, operands⟩ draft =
      if given (byte 'h') (flags.map .flag) then .ok (.stopped helpExit)
      else optLoop permute (fuel - flags.length) ⟨tail, rest, operands⟩
        ((flags.map .flag).foldl Setting.apply draft) := by
  obtain ⟨c, more, hcons⟩ := List.exists_cons_of_ne_nil hne
  obtain ⟨n, rfl⟩ : ∃ n, fuel = n + 1 := ⟨fuel - 1, by omega⟩
  rw [hcons] at hd ⊢
  rw [loop_enter permute n rest operands draft hd, ← hcons,
    ← loop_flags permute _ rest operands draft hf tail]
  congr 1
  omega

theorem given_append (letter : UInt8) (xs ys : List Setting) :
    given letter (xs ++ ys) = (given letter xs || given letter ys) := List.any_append

theorem finish_append (draft : Draft) (settings more : List Setting) (operands : List Text)
    (ending : Ending) : finish draft (settings ++ more) operands ending =
      if given (byte 'h') settings then .ok (.stopped helpExit)
      else finish (settings.foldl Setting.apply draft) more operands ending := by
  cases hg : given (byte 'h') settings with
  | true => cases ending <;> simp [finish, given_append, hg]
  | false => cases ending <;> simp [finish, given_append, hg]

theorem finish_argument (draft : Draft) (c : UInt8) (value : Text) (settings : List Setting)
    (operands : List Text) (ending : Ending) :
    finish draft (.argument c value :: settings) operands ending =
      finish (Setting.apply draft (.argument c value)) settings operands ending := by
  cases ending with
  | operands texts => rfl
  | unknown c => rfl
  | missing c => rfl

theorem finish_operand (draft : Draft) (settings : List Setting) (operands : List Text)
    (text : Text) (ending : Ending) : finish draft settings (operands ++ [text]) ending =
      finish draft settings operands (ending.after text) := by
  cases ending with
  | operands texts => simp [finish, Ending.after]
  | unknown c => rfl
  | missing c => rfl

theorem cluster_ne_dashes {flags tail : Text} (hne : flags ++ tail ≠ [])
    (hf : ∀ c ∈ flags, c ∈ flagLetters) (ht : ∀ c ∈ tail.head?, c ∈ argumentLetters) :
    byte '-' :: (flags ++ tail) ≠ ascii "--" := by
  cases flags with
  | nil =>
    obtain ⟨c, more, rfl⟩ := List.exists_cons_of_ne_nil hne
    exact ne_dashes_of_letter (List.mem_append_right _ (ht c rfl)) more
  | cons c flags =>
    exact ne_dashes_of_letter (List.mem_append_left _ (hf c List.mem_cons_self)) _

theorem letters_cons (arg : Text) (argv : List Text) :
    letters (arg :: argv) = arg.length + 1 + letters argv := by
  rw [letters, List.map_cons, List.sum_cons]
  rfl

theorem loop_reads {permute : Bool} {argv : List Text} {settings : List Setting} {ending : Ending}
    (h : Reads permute argv settings ending) {fuel : ℕ} (hfuel : letters argv < fuel)
    (operands : List Text) (draft : Draft) :
    optLoop permute fuel ⟨[], argv, operands⟩ draft =
      finish draft settings operands ending := by
  induction h generalizing fuel operands draft with
  | nil =>
    obtain ⟨n, rfl⟩ : ∃ n, fuel = n + 1 := ⟨fuel - 1, by omega⟩
    rw [finish, List.append_nil]
    rfl
  | dashes rest =>
    obtain ⟨n, rfl⟩ : ∃ n, fuel = n + 1 := ⟨fuel - 1, by omega⟩
    rfl
  | @first text rest hp ht =>
    obtain ⟨n, rfl⟩ : ∃ n, fuel = n + 1 := ⟨fuel - 1, by omega⟩
    have hget : getopt permute ⟨[], text :: rest, operands⟩ =
        (none, ⟨[], [], operands ++ text :: rest⟩) := by
      simp only [getopt, nextElement, if_neg (ne_dashes_of_operand ht), ht, hp, Bool.false_eq_true,
        ↓reduceIte]
    rw [optLoop, hget]
    rfl
  | @operand text rest settings ending hp ht _ ih =>
    rw [letters_cons] at hfuel
    obtain ⟨n, rfl⟩ : ∃ n, fuel = n + 1 := ⟨fuel - 1, by omega⟩
    have hget : getopt permute ⟨[], text :: rest, operands⟩ =
        getopt permute ⟨[], rest, operands ++ [text]⟩ := by
      simp only [getopt, nextElement, if_neg (ne_dashes_of_operand ht), ht, hp, ↓reduceIte]
    have hsame : optLoop permute (n + 1) ⟨[], text :: rest, operands⟩ draft =
        optLoop permute (n + 1) ⟨[], rest, operands ++ [text]⟩ draft := by
      rw [optLoop, optLoop, hget]
    rw [hsame, ih (by omega), finish_operand]
  | @flags flags rest settings ending hne hf _ ih =>
    rw [letters_cons, List.length_cons] at hfuel
    have hne' : flags ++ [] ≠ [] := by rwa [List.append_nil]
    have hcluster := @loop_cluster permute fuel rest operands draft flags [] hf
      (cluster_ne_dashes hne' hf (by simp)) hne' (by omega)
    rw [List.append_nil] at hcluster
    rw [hcluster, finish_append, ih (by omega)]
  | @attached flags value c rest settings ending hf hc hv _ ih =>
    rw [letters_cons, List.length_cons, List.length_append, List.length_cons] at hfuel
    have hvalue : getoptChar c value rest operands =
        (.argument c value, ⟨[], rest, operands⟩) := by
      simp [getoptChar, takesArgument_argument hc, hv]
    obtain ⟨n, hn⟩ : ∃ n, fuel - flags.length = n + 1 :=
      ⟨fuel - flags.length - 1, by omega⟩
    rw [loop_cluster permute rest operands draft hf
      (cluster_ne_dashes (by simp) hf (by simpa using hc)) (by simp) (by omega), finish_append,
      finish_argument, hn, loop_argument permute n rest operands _ hc hvalue, ih (by omega)]
  | @detached flags value c rest settings ending hf hc _ ih =>
    rw [letters_cons, letters_cons, List.length_cons, List.length_append, List.length_singleton]
      at hfuel
    have hvalue : getoptChar c [] (value :: rest) operands =
        (.argument c value, ⟨[], rest, operands⟩) := by
      simp [getoptChar, takesArgument_argument hc]
    obtain ⟨n, hn⟩ : ∃ n, fuel - flags.length = n + 1 :=
      ⟨fuel - flags.length - 1, by omega⟩
    rw [loop_cluster permute (value :: rest) operands draft hf
      (cluster_ne_dashes (by simp) hf (by simpa using hc)) (by simp) (by omega), finish_append,
      finish_argument, hn, loop_argument permute n _ operands _ hc hvalue, ih (by omega)]
  | @unknown flags more c rest hf hc hd =>
    rw [letters_cons, List.length_cons, List.length_append, List.length_cons] at hfuel
    obtain ⟨n, hn⟩ : ∃ n, fuel - flags.length = n + 1 :=
      ⟨fuel - flags.length - 1, by omega⟩
    rw [loop_cluster permute rest operands draft hf hd (by simp) (by omega), hn,
      loop_unknown permute n rest operands _ hc]
    rfl
  | @missing flags c hf hc =>
    rw [letters_cons, List.length_cons, List.length_append, List.length_singleton] at hfuel
    obtain ⟨n, hn⟩ : ∃ n, fuel - flags.length = n + 1 :=
      ⟨fuel - flags.length - 1, by omega⟩
    rw [loop_cluster permute [] operands draft hf
      (cluster_ne_dashes (by simp) hf (by simpa using hc)) (by simp) (by omega), hn,
      loop_missing permute n operands _ hc]
    rfl

theorem split_flags (cluster : Text) : ∃ flags tail, cluster = flags ++ tail ∧
    (∀ c ∈ flags, c ∈ flagLetters) ∧ ∀ c ∈ tail.head?, c ∉ flagLetters := by
  induction cluster with
  | nil => exact ⟨[], [], rfl, by simp, by simp⟩
  | cons c cluster ih =>
    by_cases hc : c ∈ flagLetters
    · obtain ⟨flags, tail, rfl, hf, ht⟩ := ih
      refine ⟨c :: flags, tail, rfl, fun d hd => ?_, ht⟩
      rcases List.mem_cons.mp hd with rfl | hd
      · exact hc
      · exact hf d hd
    · exact ⟨[], c :: cluster, rfl, by simp, by simpa using hc⟩

theorem reads_exists (permute : Bool) (argv : List Text) :
    ∃ settings ending, Reads permute argv settings ending := by
  induction hn : argv.length using Nat.strong_induction_on generalizing argv with
  | _ n ih =>
    cases argv with
    | nil => exact ⟨_, _, .nil⟩
    | cons arg rest =>
      rw [List.length_cons] at hn
      by_cases hdashes : arg = ascii "--"
      · subst hdashes
        exact ⟨_, _, .dashes rest⟩
      · cases hchars : optionChars arg with
        | none =>
          cases hp : permute with
          | false => exact ⟨_, _, .first rest rfl hchars⟩
          | true =>
            obtain ⟨settings, ending, htail⟩ := ih rest.length (by omega) rest rfl
            rw [hp] at htail
            exact ⟨_, _, .operand rfl hchars htail⟩
        | some letter =>
          obtain ⟨cluster, rfl, hne⟩ : ∃ cluster, arg = byte '-' :: cluster ∧
              cluster ≠ [] := by
            unfold optionChars at hchars
            split at hchars
            · rename_i b c more
              split at hchars
              · rename_i hb
                exact ⟨c :: more, by rw [hb], by simp⟩
              · cases hchars
            · cases hchars
          obtain ⟨settings, ending, htail⟩ := ih rest.length (by omega) rest rfl
          obtain ⟨flags, tail, rfl, hf, ht⟩ := split_flags cluster
          cases tail with
          | nil =>
            rw [List.append_nil] at hne ⊢
            exact ⟨_, _, .flags hne hf htail⟩
          | cons c value =>
            by_cases hc : c ∈ argumentLetters
            · by_cases hv : value = []
              · subst hv
                cases rest with
                | nil => exact ⟨_, _, .missing hf hc⟩
                | cons value rest =>
                  rw [List.length_cons] at hn
                  obtain ⟨settings, ending, hlater⟩ := ih rest.length (by omega) rest rfl
                  exact ⟨_, _, .detached hf hc hlater⟩
              · exact ⟨_, _, .attached hf hc hv htail⟩
            · refine ⟨_, _, .unknown rest hf ?_ hdashes⟩
              rw [List.mem_append, not_or]
              exact ⟨ht c rfl, hc⟩

theorem lastValue_cons (letter : UInt8) (setting : Setting) (settings : List Setting) :
    lastValue letter (setting :: settings) =
      (lastValue letter settings).or (setting.valueFor letter) := by
  unfold lastValue
  rw [List.filterMap_cons]
  cases setting.valueFor letter with
  | none => exact (Option.or_none).symm
  | some value =>
    rw [List.getLast?_cons]
    cases (settings.filterMap (Setting.valueFor letter)).getLast? with
    | none => rfl
    | some last => rfl

theorem foldl_apply (settings : List Setting) (draft : Draft) :
    settings.foldl Setting.apply draft =
      ⟨(lastValue (byte 'c') settings).or draft.className,
        draft.printAll || given (byte 'a') settings,
        draft.onlyExisting || given (byte 'e') settings,
        (lastValue (byte 'f') settings).getD draft.configFile,
        draft.doMkdir || given (byte 'm') settings,
        (lastValue (byte 'x') settings).or draft.evalAtt⟩ := by
  induction settings generalizing draft with
  | nil => simp [lastValue, given]
  | cons setting settings ih =>
    rw [List.foldl_cons, ih]
    simp only [lastValue_cons, given, List.any_cons]
    cases setting with
    | flag c =>
      by_cases ha : c = byte 'a'
      · subst ha
        simp [Setting.apply, Setting.isFlag, Setting.valueFor, byte]
      · by_cases he : c = byte 'e'
        · subst he
          simp [Setting.apply, Setting.isFlag, Setting.valueFor, byte]
        · by_cases hm : c = byte 'm'
          · subst hm
            simp [Setting.apply, Setting.isFlag, Setting.valueFor, byte]
          · simp [Setting.apply, Setting.isFlag, Setting.valueFor, ha, he, hm]
    | argument c value =>
      by_cases hc : c = byte 'c'
      · subst hc
        simp [Setting.apply, Setting.isFlag, Setting.valueFor, byte]
      · by_cases hf : c = byte 'f'
        · subst hf
          simp [Setting.apply, Setting.isFlag, Setting.valueFor, byte]
        · by_cases hx : c = byte 'x'
          · subst hx
            simp [Setting.apply, Setting.isFlag, Setting.valueFor, byte]
          · simp [Setting.apply, Setting.isFlag, Setting.valueFor, hc, hf, hx]

/-- Every command line can be read, and in whatever way it is read, the program does what
    the settings and their ending stand for: it displays its usage when help is asked for
    before anything goes wrong, names the first letter that is wrong, asks for a class, or
    starts with flags and last values in any order and the assignments in theirs. -/
theorem options_as_read (permute : Bool) (argv : List Text) :
    (∃ settings ending, Reads permute argv settings ending) ∧
      ∀ settings ending, Reads permute argv settings ending →
        optNew permute argv = outcome settings ending := by
  refine ⟨reads_exists permute argv, fun settings ending h => ?_⟩
  have hloop := loop_reads h (Nat.lt_succ_self _) [] initialDraft
  rw [optNew, hloop]
  cases hhelp : given (byte 'h') settings with
  | true => cases ending <;> simp [finish, outcome, hhelp]
  | false =>
    cases ending with
    | operands texts => simp [finish, outcome, hhelp, foldl_apply, initialDraft]
    | unknown c => simp [finish, outcome, hhelp]
    | missing c => simp [finish, outcome, hhelp]

theorem options_as_read_mixed :
    optNew true [ascii "root=/a", ascii "-ax", ascii "size", ascii "-cold", ascii "-c", ascii "new",
        ascii "--", ascii "-k+=v"] =
      .ok (.options ⟨ascii "new",
        [⟨ascii "root", ascii "/a", false⟩, ⟨ascii "-k", ascii "v", true⟩],
        true, false, ascii ".pathcomprc", false, some (ascii "size")⟩) := by
  have hlast : Reads true [ascii "-c", ascii "new", ascii "--", ascii "-k+=v"] _ _ :=
    @Reads.detached true [] (ascii "new") (byte 'c') _ _ _ (by decide) (by decide) (.dashes _)
  have hboth : Reads true (ascii "-cold" :: _) _ _ :=
    @Reads.attached true [] (ascii "old") (byte 'c') _ _ _ (by decide) (by decide) (by decide) hlast
  have hall : Reads true (ascii "-ax" :: ascii "size" :: _) _ _ :=
    @Reads.detached true [byte 'a'] (ascii "size") (byte 'x') _ _ _ (by decide) (by decide) hboth
  have hreads : Reads true (ascii "root=/a" :: _) _ _ := .operand rfl (by decide) hall
  exact ((options_as_read true _).2 _ _ hreads).trans rfl

end Pathcomp.Arguments
