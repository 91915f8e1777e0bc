import Stratosync.State.Types
import Mathlib.Data.List.DropRight

/-!
# Names and paths

The path functions of `fuse/write_ops.rs`: a remote path is text with `/` between its components
and no leading slash (the root is `/`), a file name is checked before it is joined to one, and the
cache file of a remote path has that path's components under the cache directory.

`PathBuf.join` and `PathBuf.parent` are those of the standard library on absolute paths: joining
text splits it at `/` and drops the empty and `.` components.
-/

namespace Stratosync

/-! ## Local paths -/

/-- The components of relative path text, as `Path::components` gives them. -/
def components (s : Str) : PathBuf :=
  (s.splitOn '/').filter fun c => c ≠ [] ∧ c ≠ ['.']

namespace PathBuf

/-- `base.join(rel)` for relative `rel`. -/
def join (base : PathBuf) (rel : Str) : PathBuf := base ++ components rel

/-- `path.parent()`; the root has none. -/
def parent (p : PathBuf) : Option PathBuf := if p = [] then none else some p.dropLast

/-- The path with each `..` and the component before it removed. -/
def normalize (p : PathBuf) : PathBuf :=
  p.foldl (fun acc c => if c = ['.', '.'] then acc.dropLast else acc ++ [c]) []

end PathBuf

/-! ## Remote paths -/

/-- `s.trim_start_matches('/')`. -/
def trimStartSlash (s : Str) : Str := s.dropWhile (· = '/')

/-- `s.trim_matches('/')`. -/
def trimSlashes (s : Str) : Str := (trimStartSlash s).rdropWhile (· = '/')

/-- Concatenate a parent remote path with a child name. -/
def joinRemote (parent child : Str) : Str :=
  let p := trimSlashes parent
  if p = [] then child else p ++ '/' :: child

/-- `validate_filename`: no traversal component, no embedded slash, no null byte. -/
def validateFilename (name : Str) : Bool :=
  !(name = [] || name = ['.'] || name = ['.', '.'] || name.contains '/' || name.contains '\x00')

/-- `name.contains("..")`. -/
def containsDotDot (name : Str) : Bool := name.tails.any (['.', '.'].isPrefixOf ·)

/-- `path` is `dir` or lies below it, component by component: the test of the tombstone filters,
and what a recursive remote operation on `dir` reaches. -/
def atOrBelow (dir path : Str) : Bool := path = dir || (dir ++ ['/']).isPrefixOf path

theorem atOrBelow_iff {dir path : Str} :
    atOrBelow dir path = true ↔ path = dir ∨ (dir ++ ['/']) <+: path := by
  simp [atOrBelow]

@[simp] theorem atOrBelow_self (dir : Str) : atOrBelow dir dir = true := by
  simp [atOrBelow]

theorem atOrBelow_trans {a b c : Str} (hab : atOrBelow a b = true) (hbc : atOrBelow b c = true) :
    atOrBelow a c = true := by
  rw [atOrBelow_iff] at hab hbc ⊢
  rcases hbc with rfl | hbc
  · exact hab
  rcases hab with rfl | hab
  · exact .inr hbc
  · exact .inr (hab.trans ((List.prefix_append _ _).trans hbc))

theorem atOrBelow_append_drop (old : Str) {new q : Str} (h : atOrBelow new q = true) :
    atOrBelow old (old ++ q.drop new.length) = true := by
  rw [atOrBelow_iff] at h ⊢
  rcases h with rfl | ⟨s, rfl⟩
  · exact .inl (by simp)
  · exact .inr ⟨s, by simp⟩

end Stratosync
