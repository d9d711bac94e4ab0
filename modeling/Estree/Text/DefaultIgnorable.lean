import Estree.Text.Ranges

/-!
# The property `Default_Ignorable_Code_Point`

The code points that leave no trace where nothing is known about them: the soft hyphen, the joiners
and other controls of layout, the variation selectors, and the fillers that hold the place of a
Hangul letter. The fillers are letters, so they may stand in identifiers.
-/

namespace Estree.Text

/-- `Default_Ignorable_Code_Point`: 4174 code points in increasing ranges. -/
def defaultIgnorable : CodeRanges :=
  [(0xad, 0xad), (0x34f, 0x34f), (0x61c, 0x61c), (0x115f, 0x1160), (0x17b4, 0x17b5),
   (0x180b, 0x180f), (0x200b, 0x200f), (0x202a, 0x202e), (0x2060, 0x206f), (0x3164, 0x3164),
   (0xfe00, 0xfe0f), (0xfeff, 0xfeff), (0xffa0, 0xffa0), (0xfff0, 0xfff8), (0x1bca0, 0x1bca3),
   (0x1d173, 0x1d17a), (0xe0000, 0xe0fff)]

end Estree.Text
