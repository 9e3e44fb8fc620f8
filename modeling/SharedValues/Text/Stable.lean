/-!
Texts freed of accidents: addresses are masked, and the entries of a map without an order of its
own are sorted.
-/
namespace SharedValues.Text

def isHexDigit (c : Char) : Bool :=
  c.isDigit || ('a' ≤ c && c ≤ 'f') || ('A' ≤ c && c ≤ 'F')

/-- Write every address as `0xADDR`. The mark `0x` alone makes an address, with whatever digits
follow it. -/
def maskAddresses : List Char → List Char
  | '0' :: 'x' :: rest => "0xADDR".toList ++ maskAddresses (rest.dropWhile isHexDigit)
  | c :: rest => c :: maskAddresses rest
  | [] => []
termination_by cs => cs.length
decreasing_by
  · have := (List.dropWhile_sublist (l := rest) isHexDigit).length_le
    simp only [List.length_cons]
    omega
  · simp

/-- A stretch of a text, by the bytes of its form in UTF-8: where it starts, and where the text goes
on behind it. -/
structure Span where
  start : Nat
  stop : Nat
  deriving DecidableEq, Repr

def byteLength (text : List Char) : Nat :=
  text.foldl (· + ·.utf8Size) 0

/-- Sort what stands between the first opening and the last closing brace, as entries divided by
a comma and a space. A text without one of the two stays as it is; if the closing brace comes first,
the stretch between them ends before it starts, and the error tells where it was. -/
def sortEntries (text : List Char) : Except Span (List Char) :=
  let before := text.takeWhile (· ≠ '\x7b')
  let after := (text.reverse.takeWhile (· ≠ '\x7d')).reverse
  if before.length = text.length || after.length = text.length then .ok text
  else if before.length + after.length + 2 ≤ text.length then
    let body := (text.drop (before.length + 1)).take (text.length - before.length - after.length - 2)
    let entries := ((String.ofList body).splitOn ", ").mergeSort (fun a b => decide (a ≤ b))
    .ok (before ++ ['\x7b'] ++ (String.intercalate ", " entries).toList ++ ['\x7d'] ++ after)
  else .error ⟨byteLength before + 1, byteLength text - byteLength after - 1⟩

end SharedValues.Text
