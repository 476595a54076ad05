import ConfigAudit.Files.FileTree
import Mathlib.Data.String.Basic

/-!
# The names of a path

A path is split at slashes, as its characters are.

* `splitOn_slash`: splitting a text, by its characters;
* `names_eq`: the names of a path in this form, in which they can be computed;
* `names_of_notMem`: a path without a slash is a name.
-/

namespace ConfigAudit.Path

open String

/-- A text is split at slashes character by character; `part` has been read already. -/
theorem splitOnAux_slash (before part rest : List Char) (parts : List String) :
    (ofList (before ++ part ++ rest)).splitOnAux "/" ⟨utf8Len before⟩
        ⟨utf8Len before + utf8Len part⟩ 0 parts =
      parts.reverse ++ (List.splitOnPPrepend (· == '/') rest part.reverse).map ofList := by
  induction rest generalizing before part parts with
  | nil =>
    have hend : Pos.Raw.atEnd (ofList (before ++ part ++ []))
        ⟨utf8Len before + utf8Len part⟩ = true := by
      simp [Pos.Raw.atEnd, utf8ByteSize_ofList, -ofList_append]
    rw [splitOnAux, if_pos hend, extract_of_valid]
    simp
  | cons c rest ih =>
    have hend : ¬Pos.Raw.atEnd (ofList (before ++ part ++ c :: rest))
        ⟨utf8Len before + utf8Len part⟩ = true := by
      have hsize := Char.utf8Size_pos c
      simp [Pos.Raw.atEnd, utf8ByteSize_ofList, -ofList_append]
      omega
    have hget := get_of_valid (before ++ part) (c :: rest)
    have hnext := next_of_valid (before ++ part) c rest
    rw [utf8Len_append] at hget hnext
    rw [splitOnAux, if_neg hend, hget, List.headD_cons]
    by_cases hc : c = '/'
    · -- The part ends here, and the next one begins behind the slash.
      subst hc
      have hmatch : ('/' == Pos.Raw.get "/" 0) = true := by decide
      have hlast : Pos.Raw.atEnd "/" (Pos.Raw.next "/" 0) = true := by decide
      have hback : Pos.Raw.unoffsetBy ⟨utf8Len before + utf8Len part + '/'.utf8Size⟩
          (Pos.Raw.next "/" 0) = ⟨utf8Len before + utf8Len part⟩ := by
        have hsize : (Pos.Raw.next "/" 0).byteIdx = '/'.utf8Size := by decide
        simp [Pos.Raw.unoffsetBy, hsize]
      have h := ih (before ++ part ++ ['/']) [] (ofList part :: parts)
      simp only [List.append_nil, List.append_assoc, List.singleton_append, utf8Len_append,
        utf8Len_cons, utf8Len_nil, Nat.zero_add, Nat.add_zero, ← Nat.add_assoc] at h
      rw [if_pos hmatch, hnext]
      simp only [hlast, if_true, hback, extract_of_valid]
      rw [List.append_assoc, h]
      simp [List.splitOnPPrepend_cons_eq_if]
    · have hdiffer : ¬(c == Pos.Raw.get "/" 0) = true := by
        have hslash : Pos.Raw.get "/" 0 = '/' := by decide
        simp [hslash, hc]
      have hstay (n : Nat) : Pos.Raw.unoffsetBy ⟨n⟩ 0 = ⟨n⟩ := rfl
      have h := ih before (part ++ [c]) parts
      simp only [List.append_assoc, List.singleton_append, utf8Len_append, utf8Len_cons,
        utf8Len_nil, Nat.zero_add, ← Nat.add_assoc] at h
      rw [if_neg hdiffer, hstay, hnext, List.append_assoc, h]
      simp [List.splitOnPPrepend_cons_eq_if, hc]

theorem splitOn_slash (text : String) :
    text.splitOn "/" = (text.toList.splitOn '/').map ofList := by
  have h := splitOnAux_slash [] [] text.toList []
  rw [List.nil_append, List.nil_append, ofList_toList] at h
  exact h

/-- The names of a path, by its characters. -/
theorem names_eq (path : String) :
    names path =
      let parts := (path.toList.splitOn '/').map ofList
      parts.filter (· != "") ++
        if parts.getLast? = some "" ∧ 1 < parts.length then ["."] else [] := by
  rw [names, splitOn_slash]

theorem names_of_notMem {name : String} (hslash : '/' ∉ name.toList) (hname : name ≠ "") :
    names name = [name] := by
  rw [names_eq, List.splitOn_eq_singleton hslash]
  simp [hname]

end ConfigAudit.Path
