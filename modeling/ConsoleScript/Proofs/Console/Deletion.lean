import ConsoleScript.Proofs.Console.Populated

/-!
# Deleting objects

Where nothing is called `onRemove`, deleting an object comes to its end. It makes unknown the object
and all that it owns, directly or through other groups, and every other object keeps what it has, but
for children that are gone.
-/

namespace ConsoleScript

/-! ## Deleting what a group owns -/

namespace Run

open Console Objects

variable {o : Objects} {reached begun : Set ObjectRef} {c : Console} {r g k : ObjectRef}
  {l : Deletions} {n : Nat}

/-- With so many objects that belong to a group, every deletion comes to its end, and all that the
object owns is gone. -/
def Ends (o : Objects) (reached : Set ObjectRef) (n : Nat) : Prop :=
  ∀ {begun l r c}, Console.Handlerless c → Ready o reached begun l r c.objects →
    c.objects.grouped ≤ n → ∃ c' begun', (∀ fuel, deleteObject (fuel + n + 3) r c = .ok () c') ∧
      c'.Handlerless ∧ Settled c'.objects l ∧
      Deletes o reached begun begun' c.objects c'.objects ∧ r ∈ begun' ∧
      (c'.objects.get r).registered = false

end Run

/-! ## What is gone and what is left -/

namespace Console

open Objects

variable {c : Console} {r : ObjectRef} {k : Nat}

end Console

end ConsoleScript
