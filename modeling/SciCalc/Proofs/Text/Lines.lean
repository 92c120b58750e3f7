/-
Typed input that is cut behind a line feed: its lines are those of the two parts (`lines_append`).
-/
import SciCalc.Text.Lines

namespace SciCalc.Text

theorem toList_loop (bytes : ByteArray) (i : Nat) (read : List UInt8) :
    ByteArray.toList.loop bytes i read = read.reverse ++ bytes.data.toList.drop i := by
  fun_induction ByteArray.toList.loop bytes i read with
  | case1 i read hlt ih =>
    have hi : i < bytes.data.toList.length := by simpa using hlt
    have hget : bytes.get! i = bytes.data.toList[i] := by
      rw [Array.getElem_toList]
      exact getElem!_pos bytes.data i hlt
    rw [ih, List.drop_eq_getElem_cons hi, ← hget, List.reverse_cons, List.append_assoc, List.singleton_append]
  | case2 i read hge =>
    have hi : bytes.data.toList.length ≤ i := by simpa using hge
    rw [List.drop_eq_nil_of_le hi, List.append_nil]

theorem toList_eq_data (bytes : ByteArray) : bytes.toList = bytes.data.toList := toList_loop bytes 0 []

theorem toList_append (front rest : ByteArray) : (front ++ rest).toList = front.toList ++ rest.toList := by
  simp only [toList_eq_data, ByteArray.toList_data_append]

theorem splitLines_append (line : List UInt8) {front : List UInt8} (rest : List UInt8)
    (h : front.getLast? = some 0x0a) :
    splitLines line (front ++ rest) = splitLines line front ++ splitLines [] rest := by
  induction front generalizing line with
  | nil => cases h
  | cons b front ih =>
    cases front with
    | nil =>
      obtain rfl : b = 0x0a := by simpa using h
      rfl
    | cons c front =>
      have hlast : (c :: front).getLast? = some 0x0a := by simpa using h
      rw [List.cons_append, splitLines, splitLines]
      split
      · rw [ih _ hlast, List.cons_append]
      · exact ih _ hlast

/-- **Input cut behind a line feed** has the lines of its parts. -/
theorem lines_append {front : ByteArray} (rest : ByteArray) (h : front.toList.getLast? = some 0x0a) :
    lines (front ++ rest) = lines front ++ lines rest := by
  rw [lines, toList_append, splitLines_append [] _ h, List.map_append, lines, lines]

end SciCalc.Text
