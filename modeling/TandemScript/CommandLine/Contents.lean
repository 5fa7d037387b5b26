/-!
# The contents of files

What reading a file gives: its text, or the reason why there is none. A reason that comes from the
system is reported in the system's words, with the number that the system gives it.
-/

namespace TandemScript.CommandLine

/-- Why a file cannot be read. -/
inductive ReadError where
  | notFound
  | denied
  /-- A part of the path before the last is no directory. -/
  | notDirectory
  | isDirectory
  | nameTooLong
  /-- The contents are no text. -/
  | notText
  | other (reason : String)
  deriving DecidableEq, Repr

namespace ReadError

/-- The number of the reason, where it comes from the system. -/
def number? : ReadError → Option Nat
  | notFound => some 2
  | denied => some 13
  | notDirectory => some 20
  | isDirectory => some 21
  | nameTooLong => some 36
  | notText | other _ => none

/-- The reason in words. -/
def reason : ReadError → String
  | notFound => "No such file or directory"
  | denied => "Permission denied"
  | notDirectory => "Not a directory"
  | isDirectory => "Is a directory"
  | nameTooLong => "File name too long"
  | notText => "stream did not contain valid UTF-8"
  | other reason => reason

/-- The text of a report: the reason, and its number in brackets. -/
def text (e : ReadError) : String :=
  match e.number? with
  | some number => s!"{e.reason} (os error {number})"
  | none => e.reason

/-- The reason with a number. -/
def ofNumber? (number : Nat) : Option ReadError :=
  [notFound, denied, notDirectory, isDirectory, nameTooLong].find? (·.number? = some number)

theorem ofNumber?_of_number? {e : ReadError} {number : Nat} (h : e.number? = some number) :
    ofNumber? number = some e := by
  cases e <;> simp only [number?, Option.some.injEq, reduceCtorEq] at h <;> subst h <;> rfl

end ReadError

/-- What reading a file gives. -/
abbrev Contents := Except ReadError String

end TandemScript.CommandLine
