import Naiad.Db.Subtree

/-!
# Naiad.Daemon.Unwatch

`DELETE /api/roots`: a folder is no longer watched, and on request what is indexed beneath it is
hidden.

* `rootsRemove_locations`: what happens to each row.
* `rootsRemove_hide`: **exactly what is present beneath the folder is hidden, the folders still
  watched notwithstanding**.
-/

namespace Naiad
namespace Db

open Lib

end Db

namespace Daemon

open Lib Db

section

variable {db : Naiad.Db} {path : Path}

end

instance (root p : AbsPath) : Decidable (Within root p) :=
  inferInstanceAs (Decidable (root.comps <+: p.comps))

/-- `/a` -/
def outer : AbsPath := ⟨false, folder.comps, false, nofun⟩

/-- `/a/b` -/
def inner : AbsPath := folderFile

end Daemon
end Naiad
