/-!
# Tables of code point ranges

A Unicode property is kept as an ascending array of inclusive ranges.
-/
namespace BlockScope.Text

/-- Some range of the table holds the code point. -/
def inRanges (ranges : Array (Nat × Nat)) (codePoint : Nat) : Bool :=
  ranges.any fun (first, last) => first ≤ codePoint && codePoint ≤ last

end BlockScope.Text
