import PluginContract.Proofs.Entries
import PluginContract.Proofs.Files.Tree
import PluginContract.Proofs.Resolution.Snapshot

/-!
# The module cache while files change

A session asks one cache for modules while the files under it are written and deleted. The
cache is a snapshot: a path gives the module that its file made up when it was first read,
under whatever spelling. A file that cannot be read leaves no trace, so the next request for
it reads again.
-/

namespace PluginContract.Source

deriving instance DecidableEq for Module

end PluginContract.Source

namespace PluginContract.Resolution

open Files Source

/-- What a cache is asked, and what happens to the files meanwhile. -/
inductive Request
  | write (place : Place) (node : Node)
  | delete (place : Place)
  | get (path : Path)
  | contains (path : Path)
  | size
  | list

/-- What a request is answered with. -/
inductive Answer
  | done
  | got (result : Except Failure Module)
  | truth (value : Bool)
  | count (value : Nat)
  | listed (modules : List Module)

/-- The module that a successful request for one is answered with. -/
def Answer.module? : Answer → Option Module
  | .got (.ok m) => some m
  | _ => none

/-- The files and the cache of a run. -/
structure Session where
  tree : Tree
  cache : Cache

namespace Session

/-- A session in which nothing has been read. -/
def start (tree : Tree) : Session := ⟨tree, .empty⟩

/-- The answer to a request, and the session after it. -/
def handle (s : Session) : Request → Answer × Session
  | .write place node => (.done, { s with tree := s.tree.set place node })
  | .delete place => (.done, { s with tree := s.tree.remove place })
  | .get path =>
      (.got (outcome (getModule s.tree path) s.cache).1,
        { s with cache := (outcome (getModule s.tree path) s.cache).2 })
  | .contains path => (.truth (s.cache.contains s.tree path), s)
  | .size => (.count s.cache.size, s)
  | .list => (.listed s.cache.modules, s)

/-- The session after some requests. -/
def after (s : Session) (requests : List Request) : Session :=
  requests.foldl (fun s request => (s.handle request).2) s

/-- The modules that successful requests are answered with, in order. -/
def loads (s : Session) : List Request → List Module
  | [] => []
  | request :: rest =>
      (s.handle request).1.module?.toList ++ (s.handle request).2.loads rest

/-- Whether a module was made up by the file at an absolute path when the first of some requests
for it was answered with a module. -/
def FirstRead (tree : Tree) (requests : List Request) (path : Path) (m : Module) : Prop :=
  ∃ before spelled rest text, requests = before ++ .get spelled :: rest ∧
    spelled.resolve tree.home = path ∧
    path ∉ ((start tree).loads before).map Module.path ∧
    ((start tree).after before).tree.readText path = .ok text ∧ m = Module.ofText path text

variable {s : Session} {tree : Tree} {requests : List Request} {request : Request}

end Session

namespace Gets

variable {tree : Tree} {path : Path} {cache : Cache} {answered : Except Failure Module × Cache}

end Gets

namespace Cache

variable {cache : Cache} {path : Path} {m : Module}

end Cache

namespace Session

/-- What a session has read: the cache lists what was loaded, each module once and under a path of
its own, and each one as it was first read. -/
structure Recorded (tree : Tree) (requests : List Request) (cache : Cache) : Prop where
  modules : cache.modules = distinct ((start tree).loads requests)
  nodup : (cache.modules.map Module.path).Nodup
  first : ∀ m ∈ cache.modules, FirstRead tree requests m.path m

variable {tree : Tree} {requests : List Request} {cache : Cache} {path : Path}

theorem Recorded.mem_iff (h : Recorded tree requests cache) {m : Module} :
    m ∈ cache.modules ↔ m ∈ (start tree).loads requests := by
  rw [h.modules, mem_distinct]

end Session

end PluginContract.Resolution
