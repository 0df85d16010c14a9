import Linearizer.Options

/-!
# Arguments of the command line

The command takes one file at most, flags, and settings with a number in the same argument after an
equals sign or in the next argument. Each flag and setting but the verbosity may be given once, and
after two dashes alone all arguments are files.
-/

namespace Linearizer
namespace Dump

/-- What a command line asks for. -/
structure Arguments where
  /-- The routine text; without a file it is read from standard input. -/
  file : Option String := none
  /-- Whether jump tables are turned off. -/
  noJumpTables : Bool := false
  /-- The fewest cases that are worth a jump table. -/
  minCases : Option Nat := none
  /-- How many routines are generated at a time. -/
  workers : Option Nat := none
  /-- Whether statistics are printed. -/
  stats : Bool := false
  /-- Whether the text's directives are checked in place of printing listings. -/
  check : Bool := false
  /-- How often more messages were asked for, which does not change the output. -/
  verbosity : Nat := 0
deriving DecidableEq

/-- A setting with a number. -/
inductive Setting where
  | minCases
  | workers
deriving DecidableEq

namespace Arguments

/-- Adds a file, unless there is one or its name is empty. -/
def addFile? (a : Arguments) (path : String) : Option Arguments :=
  if a.file.isSome || path.isEmpty then none else some { a with file := some path }

/-- Gives a setting its number, unless it has one. -/
def addSetting? (a : Arguments) (value : List Char) : Setting → Option Arguments
  | .minCases =>
    if a.minCases.isSome then none
    else (word64? value).map fun n => { a with minCases := some n }
  | .workers =>
    if a.workers.isSome then none
    else (word64? value).map fun n => { a with workers := some n }

/-- Sets a flag, unless it is set. -/
def addFlag? (a : Arguments) : String → Option Arguments
  | "--no-jump-tables" => if a.noJumpTables then none else some { a with noJumpTables := true }
  | "--stats" => if a.stats then none else some { a with stats := true }
  | "--check" => if a.check then none else some { a with check := true }
  | "--verbose" => some { a with verbosity := a.verbosity + 1 }
  | _ => none

/-- The setting of a name. -/
def setting? : String → Option Setting
  | "--jump-table-min-cases" => some .minCases
  | "--workers" => some .workers
  | _ => none

/-- Adds a group of short flags, without the dash before them. -/
def addShort? (a : Arguments) (flags : List Char) : Option Arguments :=
  if flags.all (· = 'v') then some { a with verbosity := a.verbosity + flags.length } else none

/-- Adds an argument with a setting and its number, or with a flag. -/
def addLong? (a : Arguments) (arg : String) : Option Arguments :=
  match arg.toList.dropWhile (· ≠ '=') with
  | '=' :: value =>
    (setting? (String.ofList (arg.toList.takeWhile (· ≠ '=')))).bind (a.addSetting? value)
  | _ => a.addFlag? arg

/-- Adds arguments, where the first one may belong to a setting before it. -/
def addAll? : Arguments → Option Setting → List String → Option Arguments
  | a, none, [] => some a
  | _, some _, [] => none
  | a, some s, value :: rest => do addAll? (← a.addSetting? value.toList s) none rest
  | a, none, arg :: rest =>
    if arg = "--" then rest.foldlM addFile? a
    else if let some s := setting? arg then addAll? a (some s) rest
    else
      match arg.toList with
      | '-' :: '-' :: _ => do addAll? (← a.addLong? arg) none rest
      | '-' :: c :: cs => do addAll? (← a.addShort? (c :: cs)) none rest
      | _ => do addAll? (← a.addFile? arg) none rest

/-- Reads the arguments of the command. -/
def ofList? (args : List String) : Option Arguments := addAll? {} none args

end Arguments
end Dump
end Linearizer
