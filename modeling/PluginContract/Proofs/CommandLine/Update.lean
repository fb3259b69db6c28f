import PluginContract.CommandLine.Run
import PluginContract.Proofs.Manifest.Writing

/-!
# What an update does to files

An update that fails before it writes leaves the tree alone, and one that succeeds
replaces the manifest. What is left is the failing write, which has one way to
lose a file: the sibling of a manifest that is not written to its end or cannot take its place.
-/

namespace PluginContract.CommandLine

open Files Contract Manifest

namespace Surroundings

variable {μ : Type → Type}

end Surroundings

end PluginContract.CommandLine
