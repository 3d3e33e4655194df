import BootTree.Fixup.Growth

/-!
# BootTree.Setup.Seed

The random seed from which the operating system chooses where to put itself in memory.

* `Seed.Entropy` — a source of random bytes, by what it delivers.
* `Seed.store`, `Seed.storeFresh` — put a seed into the `chosen` node.
-/

namespace BootTree

abbrev Seed := Vector UInt8 8

namespace Seed

inductive EntropyError where
  | unavailable
  | timeout
  deriving DecidableEq, Repr

def EntropyError.message : EntropyError → String
  | unavailable => "The random number generator is not available"
  | timeout => "The random number generator did not produce data in time"

/-- What a source of random bytes delivers when it is asked for a seed. -/
abbrev Entropy := Except EntropyError Seed

inductive SeedError where
  | entropy (cause : EntropyError)
  | tree (cause : TreeError)
  deriving DecidableEq, Repr

def SeedError.message : SeedError → String
  | entropy cause => "Could not generate a seed: " ++ cause.message
  | tree cause => "Could not store the seed: " ++ cause.message

def store (seed : Seed) : Attempt TreeError Unit := do
  let root ← Attempt.ask Tree.root
  let chosen ← childOrAdd root "chosen"
  setGrowing chosen "kaslr-seed" seed.toList
  Fixup.log .debug "imx8_fdt::kaslr" "kaslr-seed set"

/-- Put a fresh seed into the tree. Without random bytes the tree is left alone. -/
def storeFresh (entropy : Entropy) : Attempt SeedError Unit :=
  match entropy with
  | .error e => throw (.entropy e)
  | .ok seed => Attempt.mapError .tree (store seed)

end Seed

end BootTree
