import Chunos.Fs.Lookup

/-!
# Taking a path apart

`find_file_name` copies the next component of a path to a buffer and returns the pointer from
which the next call goes on. Here the bytes of the buffer are part of the model, and a copy
that leaves the buffer is `none`.
-/

namespace Chunos.Lookup

open List Option

/-- The copy loops of `strcpy` and `strncpy`: the bytes of the buffer afterwards. -/
def copyBytes : List UInt8 → List UInt8 → Option (List UInt8)
  | [], des => some des
  | _ :: _, [] => none
  | c :: src, _ :: des => (copyBytes src des).map (c :: ·)

/-- `strcpy`, which copies the terminating byte too. -/
def strcpy (des : List UInt8) (src : CString) : Option (List UInt8) :=
  copyBytes (src.map Subtype.val ++ [0]) des

/-- `strncpy` of characters of a string, which copies no terminating byte. -/
def strncpy (des : List UInt8) (src : CString) (len : ℕ) : Option (List UInt8) :=
  copyBytes ((src.map Subtype.val).take len) des

/-- `find_file_name`: the pointer it returns and the buffer, or `NULL`. -/
def findFileNameIn (orgName : CString) (retName : List UInt8) :
    Option (Option (CString × List UInt8)) :=
  if byteAt orgName = 0 then some none
  else
    match strchr orgName slash with
    | none =>
      (strcpy retName orgName).map fun ret => some (orgName.drop (strlen orgName - 1 + 1), ret)
    | some pos =>
      let len := strlen orgName - strlen pos
      (strncpy retName orgName len).bind fun ret =>
        if len < ret.length then some (some (pos.tail, ret.set len 0)) else none

/-- Calls of `find_file_name` until it returns `NULL`: the buffer after each call that returns
a component, and the pointer given to the last call. -/
def fileNames : ℕ → CString → List UInt8 → Option (List (List UInt8) × CString)
  | 0, _, _ => none
  | calls + 1, orgName, ret =>
    (findFileNameIn orgName ret).bind fun
      | none => some ([], orgName)
      | some (next, ret) => (fileNames calls next ret).map fun r => (ret :: r.1, r.2)

theorem copyBytes_eq {src des : List UInt8} (hfit : src.length ≤ des.length) :
    copyBytes src des = some (src ++ des.drop src.length) := by
  induction src generalizing des with
  | nil => rfl
  | cons c src ih =>
    cases des with
    | nil => simp at hfit
    | cons b des => simp [copyBytes, ih (Nat.le_of_succ_le_succ hfit)]

variable {path : CString} {ret : List UInt8}

/-- On the bytes of a buffer that the component fits in, `find_file_name` does what it does to the
path: the component is in the buffer with a terminating byte. -/
theorem findFileNameIn_eq {name rest : CString} (hfirst : findFileName path = some (name, rest))
    (hfit : name.length < ret.length) : findFileNameIn path ret =
      some (some (rest, name.map Subtype.val ++ 0 :: ret.drop (name.length + 1))) := by
  have hne : path ≠ [] := fun h => by simp [findFileName, h] at hfirst
  have hbyte : byteAt path ≠ 0 := by
    obtain ⟨c, rest, rfl⟩ := exists_cons_of_ne_nil hne
    exact c.2
  obtain ⟨name', rest', hfirst', -, hname, hpath⟩ := findFileName_eq hne
  cases hfirst.symm.trans hfirst'
  rcases hpath with rfl | ⟨rfl, rfl⟩
  · have hset : (name.map Subtype.val ++ ret.drop name.length).set name.length 0 =
        name.map Subtype.val ++ 0 :: ret.drop (name.length + 1) := by
      rw [set_append_right _ _ (by simp), drop_eq_getElem_cons hfit, length_map, Nat.sub_self,
        set_cons_zero]
    have hlen : strlen (name ++ slash :: rest) - strlen (slash :: rest) = name.length := by
      simp [strlen]
    have htake : ((name ++ slash :: rest).map Subtype.val).take name.length =
        name.map Subtype.val := by simp
    simp only [findFileNameIn, if_neg hbyte, strchr_append_cons hname, hlen, strncpy, htake]
    rw [copyBytes_eq (by rw [length_map]; omega), length_map, bind_some, hset,
      if_pos (by simp; omega), tail_cons]
  · rw [findFileNameIn, if_neg hbyte, strchr_eq_none hname, strcpy, copyBytes_eq (by simpa)]
    simp [strlen, Nat.sub_add_cancel (length_pos_of_ne_nil hne)]

/-- Taken apart with `find_file_name`, a path gives its components in order, each of them with a
terminating byte in the buffer, and the last call is made at the byte that ends the path. -/
theorem fileNames_components (hfit : ∀ name ∈ components path, name.length < ret.length) :
    ∃ bufs, fileNames (path.length + 1) path ret = some (bufs, []) ∧
      Forall₂ (fun buf name => name.map Subtype.val ++ [0] <+: buf) bufs (components path) := by
  suffices hloop : ∀ calls, path.length < calls → ∃ bufs, fileNames calls path ret =
      some (bufs, []) ∧ Forall₂ (fun buf name => name.map Subtype.val ++ [0] <+: buf) bufs
        (components path) from hloop _ (Nat.lt_succ_self _)
  intro calls hcalls
  induction calls generalizing path ret with
  | zero => omega
  | succ calls ih =>
    by_cases hne : path = []
    · subst hne
      exact ⟨[], rfl, Forall₂.nil⟩
    obtain ⟨name, rest, hfirst, hcomponents, -, hpath⟩ := findFileName_eq hne
    rw [hcomponents] at hfit ⊢
    obtain ⟨hname, hrest⟩ := forall_mem_cons.mp hfit
    have hcall := findFileNameIn_eq hfirst hname
    have hprefix : name.map Subtype.val ++ [0] <+:
        name.map Subtype.val ++ 0 :: ret.drop (name.length + 1) := by simp
    have hlen : (name.map Subtype.val ++ 0 :: ret.drop (name.length + 1)).length = ret.length := by
      simp
      omega
    generalize name.map Subtype.val ++ 0 :: ret.drop (name.length + 1) = buf at hcall hprefix hlen
    have hless : rest.length < path.length := by
      rcases hpath with rfl | ⟨-, rfl⟩
      · simp
        omega
      · exact length_pos_of_ne_nil hne
    rw [← hlen] at hrest
    obtain ⟨bufs, hbufs, hall⟩ := ih hrest (by omega)
    refine ⟨buf :: bufs, ?_, Forall₂.cons hprefix hall⟩
    simp only [fileNames, hcall, bind_some, hbufs, map_some]

/-- A path with an empty component and a slash at its end. -/
theorem fileNames_components_slashes :
    (∀ name ∈ components (cstr "/bin//sh/"), name.length < (replicate 16 0).length) ∧
      ∃ bufs, fileNames 10 (cstr "/bin//sh/") (replicate 16 0) = some (bufs, []) ∧
        Forall₂ (fun buf name => name.map Subtype.val ++ [0] <+: buf) bufs
          [[], cstr "bin", [], cstr "sh"] := by
  have hfit : ∀ name ∈ components (cstr "/bin//sh/"), name.length < (replicate 16 0).length := by
    decide
  exact ⟨hfit, fileNames_components hfit⟩

end Chunos.Lookup
