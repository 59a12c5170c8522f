import FreshLocal.Injection.Method

/-!
# A fresh variable in every method of a class

The events of a class are sent on as they come, but those of each body go
through an injection that lives as long as the method.

* `ClassInjection.step`: what becomes of one event of a class.
-/

namespace FreshLocal

/-- The injection into one class. -/
structure ClassInjection where
  options : Options
  /-- The name that the declaration of the class gave. -/
  className : Option BinaryName
  /-- The title of the method that is open, and the injection into its body. -/
  method : Option (String × MethodInjection)

namespace ClassInjection

/-- Before the class starts. -/
def ofOptions (options : Options) : ClassInjection := ⟨options, none, none⟩

/-- The injection into a method of a class. -/
def openMethod (options : Options) (className : BinaryName) (d : MethodDeclaration) :
    String × MethodInjection :=
  (d.title, .ofAllocator (options.allocator (.ofDeclaration d className)))

/-- What becomes of one event of a class. -/
def step : Stage ClassEvent ClassInjection := fun i event =>
  match event with
  | .classStart c => .send { i with className := some c.name } event
  | .methodStart d =>
    match i.method, i.className with
    | some _, _ => .stop i (.unexpectedEvent .methodInsideMethod)
    | none, none => .stop i (.unexpectedEvent .methodBeforeClass)
    | none, some name => .send { i with method := some (openMethod i.options name d) } event
  | .body e =>
    match i.method with
    | none => .stop i (.unexpectedEvent .codeOutsideMethod)
    | some (title, m) =>
      (m.step e).lift .body (fun m => { i with method := some (title, m) }) title
  | .methodEnd =>
    match i.method with
    | none => .stop i (.unexpectedEvent .methodEndWithoutStart)
    | some _ => .send { i with method := none } event
  | .field _ | .attribute _ | .classEnd => .send i event

end ClassInjection

end FreshLocal
