import ModuleWorkers.Script.CommonJs
import ModuleWorkers.Script.Renaming
import ModuleWorkers.Script.Grouping
import ModuleWorkers.Script.Printer
/-!
# Scripts as bodies of module functions

`convert` turns a script into the body of a function that gets `require`, `exports` and `module`.
Specifiers are replaced by what they stand for; a script with import or export declarations becomes
a CommonJS module, any other is only printed again.
-/

namespace ModuleWorkers.Script

/-- What each dependency of a script stands for; of two dependencies alike the last one counts. -/
def targetOf (dependencies : List Dependency) (targets : List Target) (d : Dependency) :
    Option Target :=
  (dependencies.zip targets).reverse.lookup d

/-- The statements to print for a script whose specifiers were replaced. -/
def Program.statements (p : Program) : List Node :=
  if p.isModule then regroup (renameVariables (toCommonJs p.items)) else stmtsOf p.items

/-- Converts a script, given what each of its dependencies stands for, and its address. -/
def convert (text : String) (targets : List Target) (url : String) :
    Except ParseError Output := do
  let p ← Program.parse text
  let s : Substitution := ⟨targetOf p.dependencies targets, url⟩
  return printStatements p.shebang (p.substitute s).statements

end ModuleWorkers.Script
