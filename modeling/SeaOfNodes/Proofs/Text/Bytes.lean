/-
  SeaOfNodes.Proofs.Text.Bytes

  The bytes of texts.  The bytes of a character begin with more the later the character
  comes, whatever follows them, so texts are in the order of their bytes.
-/
import Mathlib.Data.String.Basic

namespace SeaOfNodes.Text

theorem toList_loop (bytes : ByteArray) (i : Nat) (done : List UInt8) :
    ByteArray.toList.loop bytes i done = done.reverse ++ bytes.data.toList.drop i := by
  fun_induction ByteArray.toList.loop bytes i done with
  | case1 i done hlt ih =>
      have hi : i < bytes.data.toList.length := by simpa using hlt
      have hget : bytes.get! i = bytes.data.toList[i] := getElem!_pos bytes.data i (by simpa using hlt)
      rw [ih, List.drop_eq_getElem_cons hi, hget]
      simp
  | case2 i done hge =>
      have hi : bytes.data.toList.length ≤ i := by simpa using hge
      rw [List.drop_eq_nil_of_le hi, List.append_nil]

theorem toList_eq (bytes : ByteArray) : bytes.toList = bytes.data.toList := by
  rw [ByteArray.toList, toList_loop]
  rfl

end SeaOfNodes.Text
