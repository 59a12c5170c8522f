import FreshLocal.ClassBuilder
import FreshLocal.Injection.Class
import FreshLocal.Script

/-!
# A fresh variable in a class file

A class is read as events, which go through the injection into a builder.

* `withFreshLocals`: the bytes of a class with a fresh variable in every method.
-/

namespace FreshLocal

/-- The bytes of the class with a fresh local variable, set to -1, in every method that has a
body. -/
def withFreshLocals (options : Options) (bytes : Bytes) : Except Fault Bytes := do
  let file ← ClassFile.read bytes
  let sink := ClassInjection.step.into ClassBuilder.receive
  match file.script.deliver sink (.ofOptions options, .empty) with
  | (_, some fault) => throw fault
  | ((_, builder), none) => builder.finish

end FreshLocal
