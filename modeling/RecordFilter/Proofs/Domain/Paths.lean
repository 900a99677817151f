import RecordFilter.Proofs.Schema.Registered

/-! Dotted paths: the first field of a path holds no dot, and what stands behind its dot is the rest. -/

namespace RecordFilter.Leaf

theorem splitPath_of_dotless {cs : List Char} (h : '.' ∉ cs) : splitPath cs = (cs, none) := by
  induction cs with
  | nil => rfl
  | cons c rest ih =>
    obtain ⟨hc, hrest⟩ := not_or.mp (mt List.mem_cons.mpr h)
    rw [splitPath, if_neg (Ne.symm hc), ih hrest]

theorem splitPath_append {head : List Char} (h : '.' ∉ head) (rest : List Char) :
    splitPath (head ++ '.' :: rest) = (head, some rest) := by
  induction head with
  | nil => simp [splitPath]
  | cons c cs ih =>
    obtain ⟨hc, hcs⟩ := not_or.mp (mt List.mem_cons.mpr h)
    rw [List.cons_append, splitPath, if_neg (Ne.symm hc), ih hcs]

theorem dotless_splitPath (cs : List Char) : '.' ∉ (splitPath cs).1 := by
  induction cs with
  | nil => exact List.not_mem_nil
  | cons c rest ih =>
    unfold splitPath
    split
    · exact List.not_mem_nil
    · rename_i hc
      exact fun hmem => (List.mem_cons.mp hmem).elim (fun h => hc h.symm) ih

variable {op : Operator} {right : Operand}

theorem path_of_dotless {name : String} (h : '.' ∉ name.toList) : (Leaf.mk name op right).path = (name, none) := by
  unfold path
  rw [splitPath_of_dotless h]
  exact Prod.ext String.ofList_toList rfl

theorem path_append {name : String} (h : '.' ∉ name.toList) (rest : String) :
    (Leaf.mk (name ++ "." ++ rest) op right).path = (name, some rest) := by
  have hlist : (name ++ "." ++ rest).toList = name.toList ++ '.' :: rest.toList := by
    rw [String.toList_append, String.toList_append, List.append_assoc]
    rfl
  unfold path
  rw [hlist, splitPath_append h]
  exact Prod.ext String.ofList_toList (congrArg some String.ofList_toList)

theorem dotless_path (l : Leaf) : '.' ∉ l.path.1.toList := by
  unfold path
  rw [String.toList_ofList]
  exact dotless_splitPath l.left.toList

/-- The first field of a path, taken alone. -/
theorem path_head (l : Leaf) : (Leaf.mk l.path.1 op right).path = (l.path.1, none) := path_of_dotless l.dotless_path

end RecordFilter.Leaf
