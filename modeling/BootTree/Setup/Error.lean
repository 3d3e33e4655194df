import BootTree.Partition.Controller
import BootTree.Tree.Error

/-!
# BootTree.Setup.Error

The failures that end the setup of the device tree, with the status numbers that the boot flow
reports for them.
-/

namespace BootTree

inductive SetupError where
  /-- The tree could not be read while binding bus masters. -/
  | tree (cause : TreeError)
  /-- A resource of the running partition could not be bound to its stream id. -/
  | binding (cause : ControllerError)
  /-- The node of the secure operating system could not be added. -/
  | secureOs (cause : TreeError)
  deriving DecidableEq, Repr

namespace SetupError

def message : SetupError → String
  | tree cause => "The device tree is malformed: " ++ cause.message
  | binding cause =>
    "Could not configure the SMMU stream id of an owned resource: " ++ cause.message
  | secureOs cause => "Could not add the OP-TEE node: " ++ cause.message

def code : SetupError → Int
  | tree cause | secureOs cause => cause.code
  | binding _ => -22

theorem code_neg (e : SetupError) : e.code < 0 := by
  cases e with
  | tree cause | secureOs cause => exact cause.code_neg
  | binding => simp [code]

end SetupError

end BootTree
