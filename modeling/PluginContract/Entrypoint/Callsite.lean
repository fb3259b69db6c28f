import PluginContract.Source.Module

/-! # Calls with type arguments

A callsite is a function name with an explicit list of type arguments and a list of arguments. The
name must not continue an identifier or a member access, and a function declaration does not
count. -/

namespace PluginContract.Entrypoint
open Text Script Source Files

/-- A call in a source file. -/
structure Callsite where
  function : String
  file : Path
  typeArguments : List (List Char)
  arguments : List (List Char)
  offset : Nat
deriving DecidableEq, Repr

/-- A function name and the angle bracket after it, at the start of a masked text; the length goes
up to the bracket. -/
def namePattern (function : List Char) : Pattern Nat := fun before t =>
  match keyword? function before t with
  | none => none
  | some rest =>
      match trimStart rest with
      | '<' :: after => some (t.length - after.length - 1, t.length - after.length)
      | _ => none

/-- How far back from a name a declaration is looked for. -/
def declarationWindow : Nat := 32

/-- The text before a name, backwards, without a star and blanks around it at its end. -/
def beforeStar (backwards : List Char) : List Char :=
  match trimStart backwards with
  | '*' :: rest => trimStart rest
  | rest => rest

/-- Whether the text before a name ends in the keyword of a function declaration. -/
def isDeclared (masked : List Char) (offset : Nat) : Bool :=
  let window := ((masked.take offset).reverse).take declarationWindow
  match after? "noitcnuf".toList (beforeStar window) with
  | some rest => !rest.head?.any isWord
  | none => false

/-- The callsite at a place where a name and an angle bracket stand. -/
def callsiteAt? (m : Module) (masked : List Char) (function : String) (found : Found Nat) :
    Option Callsite :=
  if isDeclared masked found.start then none
  else
    let angle := found.start + found.value
    match matching? m.text angle '<' '>' with
    | none => none
    | some angleEnd =>
        let gap := ((masked.drop (angleEnd + 1)).takeWhile isBlank).length
        let parenthesis := angleEnd + 1 + gap
        if masked[parenthesis]? = some '(' then
          (matching? m.text parenthesis '(' ')').map fun parenthesisEnd =>
            { function
              file := m.path
              typeArguments := split .angled [','] (slice m.text (angle + 1) angleEnd)
              arguments := splitCommas (slice m.text (parenthesis + 1) parenthesisEnd)
              offset := found.start }
        else none

/-- The calls of a function in a module, in source order. -/
def callsites (m : Module) (function : String) : List Callsite :=
  let masked := mask m.text
  ((namePattern function.toList).findAll masked).filterMap (callsiteAt? m masked function)

end PluginContract.Entrypoint
