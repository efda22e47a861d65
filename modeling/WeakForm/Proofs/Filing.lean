import WeakForm.Integral.Block
import WeakForm.Proofs.MapSum

/-!
# Blocks in files

A file keeps blocks by the dofs they cover. Filing a block adds it to those under its dofs,
and every other block stays where it is.

* `Block.File.entries` — the blocks of a file, each with the dofs it is filed under;
* `entries_file`, `entries_fileAll` — the blocks after filing one more, and several.
-/

namespace WeakForm.Block

/-- The blocks of a file, each with the dofs it is filed under. -/
def File.entries (file : File) : List (Dofs × Block) :=
  file.toList.flatMap fun filed => filed.2.map (filed.1, ·)

/-- File blocks by the dofs they cover, one after the other. -/
def fileAll (file : File) (blocks : List Block) : File :=
  blocks.foldl (fun file b => Block.file file b.dofs b) file

/-- One block more is filed under its dofs, and no other block is moved or lost. -/
theorem entries_file (file : File) (dofs : Dofs) (b : Block) :
    (Block.file file dofs b).entries.Perm (file.entries ++ [(dofs, b)]) := by
  have hentries : (Block.file file dofs b).entries.Perm
      (((file.getD dofs [] ++ [b]).map (dofs, ·)) ++
        (others file dofs).flatMap fun filed => filed.2.map (filed.1, ·)) := by
    have hperm :=
      (perm_insert (m := file) (k := dofs) (v := file.getD dofs [] ++ [b])).flatMap_right
      fun filed => filed.2.map (filed.1, ·)
    rwa [List.flatMap_cons] at hperm
  -- what was filed under the dofs, together with the other blocks, is the old file
  have hold : file.entries.Perm ((file.getD dofs []).map (dofs, ·) ++
      (others file dofs).flatMap fun filed => filed.2.map (filed.1, ·)) := by
    rw [Std.TreeMap.getD_eq_getD_getElem?]
    cases h : file[dofs]? with
    | none =>
      rw [others_of_none h]
      exact .refl _
    | some blocks =>
      have hperm := (perm_of_getElem? h).flatMap_right fun filed => filed.2.map (filed.1, ·)
      rwa [List.flatMap_cons] at hperm
  -- the block goes behind those filed under the same dofs before
  rw [List.map_append, List.append_assoc] at hentries
  refine hentries.trans (List.Perm.trans ?_ (hold.symm.append_right _))
  rw [List.append_assoc]
  exact List.Perm.append_left _ List.perm_append_comm

/-- **Filing loses and repeats no block.** -/
theorem entries_fileAll (file : File) (blocks : List Block) :
    (fileAll file blocks).entries.Perm (file.entries ++ blocks.map fun b => (b.dofs, b)) := by
  induction blocks generalizing file with
  | nil =>
    rw [List.map_nil, List.append_nil]
    exact .refl _
  | cons b blocks ih =>
    have hrest := ih (Block.file file b.dofs b)
    have hfirst := (entries_file file b.dofs b).append_right (blocks.map fun b => (b.dofs, b))
    rw [List.append_assoc] at hfirst
    exact hrest.trans hfirst

end WeakForm.Block
