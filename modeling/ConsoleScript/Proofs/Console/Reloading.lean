import ConsoleScript.Proofs.Console.Exporting
import ConsoleScript.Proofs.Console.Sessions

/-!
# Loading exported variables

What a console exports is a script of assignments. The script compiles unless it assigns positive
infinity, whose text is no expression. Run in a new console it gives each variable a value, which has
the text that the variable had exactly if the value was exportable: a text must be valid UTF-8, and a
number must keep its text when it is read from it.

All of this is about variables whose names are read as one token. An element of an array can have
another name, because its index becomes part of the name.
-/

namespace ConsoleScript

/-! ## Exports as rows -/

namespace Literal

variable {l : Literal} {v : Value}

end Literal

section Rows

variable {rows : List Row}

namespace Row

end Row

end Rows

/-! ## Running rows -/

namespace Console

variable {c c' : Console}

theorem Writable.same (h : c.Writable) (hnames : c'.names = c.names)
    (hscopes : c.scopes.SameGlobals c'.scopes) :
    c'.Writable ∧ ∀ t, c'.global? t = c.global? t := by
  obtain ⟨b, hglobal, hopen⟩ := h
  have hglobal' : Scopes.Global c'.names c'.scopes b := hnames ▸ hglobal.same hscopes
  refine ⟨⟨b, hglobal', hopen⟩, ?_⟩
  intro t
  rw [global?_eq hglobal', global?_eq hglobal, hnames]

end Console

namespace Session

variable {strict : Prop} {s : Session}

theorem invariant_tabled (strict : Prop) :
    Invariant strict fun s _ _ => Scopes.Tabled s.console.names s.console.scopes where
  start buckets _ _ := ⟨{}, Scopes.global_ofBuckets buckets⟩
  move h hmove := hmove.tabled h
  scopes _ hsame h := h.same hsame
  link h hlinks := by
    rw [hlinks.sameSetting.scopes]
    exact h.grow hlinks.sameSetting.names
  load _ h := h
  exec _ h := h

theorem Reachable.tabled (h : s.Reachable strict) :
    Scopes.Tabled s.console.names s.console.scopes :=
  (invariant_tabled strict).holds h

end Session

namespace Console

variable {c : Console} {pattern t : Text} {v : Value}

end Console

open Console

namespace Console

theorem Changes.setGlobal {base : Nat} {strict : Prop} {block : Option BlockId} {c : Console}
    (hclosed : c.scopes.Closed base) (t : Text) (v : Value) :
    Changes base strict block c (c.setGlobal t v) := by
  obtain ⟨hvariable, howner⟩ := Changes.globalVariable strict block hclosed t
  rw [Console.setGlobal]
  generalize c.globalVariable t = p at hvariable howner
  obtain ⟨_ | r, c'⟩ := p
  · exact hvariable
  · have hr : r.owner.In base c'.scopes.depth := hvariable.edits.depth ▸ howner r rfl
    exact hvariable.trans (.assign c' hr v)

end Console

end ConsoleScript
