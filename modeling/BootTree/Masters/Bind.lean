import BootTree.Masters.Plan
import BootTree.Setup.Error

/-!
# BootTree.Masters.Bind

Binding bus masters to their stream ids. The bindings the device tree asks for are requested one
after the other; a refusal only matters for resources that the running partition owns, and the first
such refusal ends the setup.

* `carryOut` — request the bindings of a plan.
* `bindMasters` — request all bindings of a tree.
-/

namespace BootTree

namespace Masters

def answerText : Except ControllerError Unit → String
  | .ok () => "Ok(())"
  | .error e => "Err(" ++ e.name ++ ")"

def carryOut (controller : Controller) (earlier : List Binding) :
    Plan Binding → Reported (Except SetupError Unit)
  | [] => pure (.ok ())
  | .note record :: rest => do
    Reported.tell [.logged record]
    carryOut controller earlier rest
  | .fail e :: _ => pure (.error (.tree e))
  | .ask binding :: rest => do
    let answer := controller.bind earlier binding
    let resource := binding.resource
    let both := s!"resource {resource.text}" ++ " to sid " ++ hex binding.stream.toNat
    Reported.tell [.bound binding answer]
    Reported.log .debug logTarget
      (s!"set_master_sid resource {resource.text} sid " ++ hex binding.stream.toNat ++ ": " ++
        answerText answer)
    let requested := earlier ++ [binding]
    match answer with
    | .ok () => carryOut controller requested rest
    | .error e =>
      Reported.tell [.queried resource]
      if controller.owns requested resource then
        Reported.log .error logTarget ("failed to bind " ++ both ++ ": " ++ e.message)
        return .error (.binding e)
      else
        Reported.log .warn logTarget
          ("not binding " ++ both ++ ", it is not owned: " ++ e.message)
        carryOut controller requested rest

def bindMasters (controller : Controller) (tree : Tree) : Reported (Except SetupError Unit) :=
  carryOut controller [] (bindings tree)

end Masters

end BootTree
