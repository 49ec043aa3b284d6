import WordC.Text.Digit
import WordC.Text.Letter

/-!
# Printable characters

A character is printable when it is a letter, mark, number, punctuation mark or symbol of the
standard, or the plain space. Controls, format characters, other separators and unassigned code
points are not.
-/

namespace WordC.Text

/-- Intervals of printable characters above the ASCII block, which hold all that are neither letters
nor numeric. -/
def printableRanges : List (Nat × Nat) :=
  [(0xa1, 0xac), (0xae, 0x375), (0x37e, 0x37e), (0x384, 0x387), (0x3f6, 0x489), (0x55a, 0x58a),
   (0x58d, 0x58f), (0x591, 0x5c7), (0x5f3, 0x5f4), (0x606, 0x61b), (0x61d, 0x6dc), (0x6de, 0x70d),
   (0x711, 0x74a), (0x7a6, 0x7b0), (0x7eb, 0x7f9), (0x7fd, 0x82d), (0x830, 0x83e), (0x859, 0x85b),
   (0x85e, 0x85e), (0x888, 0x888), (0x898, 0x8e1), (0x8e3, 0x983), (0x9bc, 0x9c4), (0x9c7, 0x9c8),
   (0x9cb, 0x9cd), (0x9d7, 0x9d7), (0x9e2, 0x9e3), (0x9f2, 0x9fe), (0xa01, 0xa03), (0xa3c, 0xa3c),
   (0xa3e, 0xa42), (0xa47, 0xa48), (0xa4b, 0xa4d), (0xa51, 0xa51), (0xa70, 0xa76), (0xa81, 0xa83),
   (0xabc, 0xac5), (0xac7, 0xac9), (0xacb, 0xacd), (0xae2, 0xae3), (0xaf0, 0xaf1), (0xafa, 0xaff),
   (0xb01, 0xb03), (0xb3c, 0xb44), (0xb47, 0xb48), (0xb4b, 0xb4d), (0xb55, 0xb57), (0xb62, 0xb63),
   (0xb70, 0xb70), (0xb82, 0xb82), (0xbbe, 0xbc2), (0xbc6, 0xbc8), (0xbca, 0xbcd), (0xbd7, 0xbd7),
   (0xbf3, 0xbfa), (0xc00, 0xc04), (0xc3c, 0xc44), (0xc46, 0xc48), (0xc4a, 0xc4d), (0xc55, 0xc56),
   (0xc62, 0xc63), (0xc77, 0xc84), (0xcbc, 0xcc4), (0xcc6, 0xcc8), (0xcca, 0xccd), (0xcd5, 0xcd6),
   (0xce2, 0xce3), (0xd00, 0xd03), (0xd3b, 0xd44), (0xd46, 0xd48), (0xd4a, 0xd4f), (0xd57, 0xd63),
   (0xd79, 0xd79), (0xd81, 0xd83), (0xdca, 0xdca), (0xdcf, 0xdd4), (0xdd6, 0xdd6), (0xdd8, 0xddf),
   (0xdf2, 0xdf4), (0xe31, 0xe3a), (0xe3f, 0xe5b), (0xeb1, 0xebc), (0xec8, 0xecd), (0xf01, 0xf3f),
   (0xf71, 0xf97), (0xf99, 0xfbc), (0xfbe, 0xfcc), (0xfce, 0xfda), (0x102b, 0x109f),
   (0x10fb, 0x10fb), (0x135d, 0x1368), (0x1390, 0x1399), (0x1400, 0x166e), (0x169b, 0x169c),
   (0x16eb, 0x16ed), (0x1712, 0x1715), (0x1732, 0x1736), (0x1752, 0x1753), (0x1772, 0x1773),
   (0x17b4, 0x17dd), (0x1800, 0x180d), (0x180f, 0x180f), (0x1885, 0x18a9), (0x1920, 0x192b),
   (0x1930, 0x193b), (0x1940, 0x1940), (0x1944, 0x1945), (0x19de, 0x1a1b), (0x1a1e, 0x1a5e),
   (0x1a60, 0x1a7c), (0x1a7f, 0x1a7f), (0x1aa0, 0x1aad), (0x1ab0, 0x1ace), (0x1b00, 0x1b44),
   (0x1b5a, 0x1b7e), (0x1b80, 0x1bf3), (0x1bfc, 0x1c37), (0x1c3b, 0x1c3f), (0x1c7e, 0x1c7f),
   (0x1cc0, 0x1cc7), (0x1cd0, 0x1cf9), (0x1dc0, 0x1dff), (0x1fbd, 0x1fc1), (0x1fcd, 0x1fcf),
   (0x1fdd, 0x1fef), (0x1ffd, 0x1ffe), (0x2010, 0x2027), (0x2030, 0x205e), (0x207a, 0x208e),
   (0x20a0, 0x20c0), (0x20d0, 0x20f0), (0x2100, 0x218b), (0x2190, 0x2426), (0x2440, 0x244a),
   (0x249c, 0x2b73), (0x2b76, 0x2b95), (0x2b97, 0x2cf1), (0x2cf9, 0x2cff), (0x2d70, 0x2d70),
   (0x2d7f, 0x2d7f), (0x2de0, 0x2e5d), (0x2e80, 0x2e99), (0x2e9b, 0x2ef3), (0x2f00, 0x2fd5),
   (0x2ff0, 0x2ffb), (0x3001, 0x303f), (0x3099, 0x30fb), (0x3190, 0x31e3), (0x3200, 0x321e),
   (0x322a, 0x4dff), (0xa490, 0xa4c6), (0xa4fe, 0xa60f), (0xa66f, 0xa6f7), (0xa700, 0xa78a),
   (0xa802, 0xa82c), (0xa836, 0xa839), (0xa874, 0xa877), (0xa880, 0xa8c5), (0xa8ce, 0xa8cf),
   (0xa8e0, 0xa953), (0xa95f, 0xa95f), (0xa980, 0xa9cd), (0xa9de, 0xa9e5), (0xaa29, 0xaa36),
   (0xaa43, 0xaa4d), (0xaa5c, 0xaac1), (0xaade, 0xaaf6), (0xab5b, 0xab6b), (0xabe3, 0xabed),
   (0xfb1e, 0xfb29), (0xfbb2, 0xfbc2), (0xfd3e, 0xfd4f), (0xfdcf, 0xfdcf), (0xfdfc, 0xfe19),
   (0xfe20, 0xfe52), (0xfe54, 0xfe66), (0xfe68, 0xfe6b), (0xff01, 0xff65), (0xffe0, 0xffe6),
   (0xffe8, 0xffee), (0xfffc, 0xfffd), (0x10100, 0x10102), (0x10137, 0x1018e), (0x10190, 0x1019c),
   (0x101a0, 0x101a0), (0x101d0, 0x101fd), (0x102e0, 0x102e0), (0x10376, 0x1037a),
   (0x1039f, 0x1039f), (0x103d0, 0x103d0), (0x1056f, 0x1056f), (0x10857, 0x10878),
   (0x1091f, 0x1091f), (0x1093f, 0x1093f), (0x10a01, 0x10a03), (0x10a05, 0x10a06),
   (0x10a0c, 0x10a0f), (0x10a38, 0x10a3a), (0x10a3f, 0x10a3f), (0x10a50, 0x10a58),
   (0x10a7f, 0x10a7f), (0x10ac8, 0x10ae6), (0x10af0, 0x10af6), (0x10b39, 0x10b3f),
   (0x10b99, 0x10b9c), (0x10d24, 0x10d27), (0x10eab, 0x10ead), (0x10f46, 0x10f59),
   (0x10f82, 0x10f89), (0x11000, 0x1104d), (0x11070, 0x11074), (0x1107f, 0x110bc),
   (0x110be, 0x110c2), (0x11100, 0x11134), (0x11140, 0x11146), (0x11173, 0x11175),
   (0x11180, 0x111df), (0x1122c, 0x1123e), (0x112a9, 0x112a9), (0x112df, 0x112ea),
   (0x11300, 0x11303), (0x1133b, 0x11344), (0x11347, 0x11348), (0x1134b, 0x1134d),
   (0x11357, 0x11357), (0x11362, 0x11363), (0x11366, 0x1136c), (0x11370, 0x11374),
   (0x11435, 0x1145b), (0x1145d, 0x1145e), (0x114b0, 0x114c6), (0x115af, 0x115b5),
   (0x115b8, 0x115dd), (0x11630, 0x11643), (0x11660, 0x1166c), (0x116ab, 0x116b9),
   (0x1171d, 0x1172b), (0x1173c, 0x1173f), (0x1182c, 0x1183b), (0x11930, 0x11935),
   (0x11937, 0x11938), (0x1193b, 0x11946), (0x119d1, 0x119d7), (0x119da, 0x119e4),
   (0x11a01, 0x11a47), (0x11a51, 0x11aa2), (0x11c2f, 0x11c36), (0x11c38, 0x11c45),
   (0x11c70, 0x11c71), (0x11c92, 0x11ca7), (0x11ca9, 0x11cb6), (0x11d31, 0x11d36),
   (0x11d3a, 0x11d3a), (0x11d3c, 0x11d3d), (0x11d3f, 0x11d47), (0x11d8a, 0x11d8e),
   (0x11d90, 0x11d91), (0x11d93, 0x11d97), (0x11ef3, 0x11ef8), (0x11fd5, 0x11ff1),
   (0x11fff, 0x11fff), (0x12470, 0x12474), (0x12ff1, 0x12ff2), (0x16a6e, 0x16a6f),
   (0x16af0, 0x16af5), (0x16b30, 0x16b45), (0x16e97, 0x16e9a), (0x16f4f, 0x16f87),
   (0x16f8f, 0x16f92), (0x16fe2, 0x16fe4), (0x16ff0, 0x16ff1), (0x1bc9c, 0x1bc9f),
   (0x1cf00, 0x1cf2d), (0x1cf30, 0x1cf46), (0x1cf50, 0x1cfc3), (0x1d000, 0x1d0f5),
   (0x1d100, 0x1d126), (0x1d129, 0x1d172), (0x1d17b, 0x1d1ea), (0x1d200, 0x1d245),
   (0x1d300, 0x1d356), (0x1d6c1, 0x1d7c3), (0x1d800, 0x1da8b), (0x1da9b, 0x1da9f),
   (0x1daa1, 0x1daaf), (0x1e000, 0x1e006), (0x1e008, 0x1e018), (0x1e01b, 0x1e021),
   (0x1e023, 0x1e024), (0x1e026, 0x1e02a), (0x1e130, 0x1e136), (0x1e14f, 0x1e14f),
   (0x1e2ae, 0x1e2ae), (0x1e2ec, 0x1e2ef), (0x1e2ff, 0x1e2ff), (0x1e8d0, 0x1e8d6),
   (0x1e944, 0x1e94a), (0x1e95e, 0x1e95f), (0x1ecac, 0x1ecb0), (0x1ed2e, 0x1ed2e),
   (0x1eef0, 0x1eef1), (0x1f000, 0x1f02b), (0x1f030, 0x1f093), (0x1f0a0, 0x1f0ae),
   (0x1f0b1, 0x1f0bf), (0x1f0c1, 0x1f0cf), (0x1f0d1, 0x1f0f5), (0x1f10d, 0x1f1ad),
   (0x1f1e6, 0x1f202), (0x1f210, 0x1f23b), (0x1f240, 0x1f248), (0x1f250, 0x1f251),
   (0x1f260, 0x1f265), (0x1f300, 0x1f6d7), (0x1f6dd, 0x1f6ec), (0x1f6f0, 0x1f6fc),
   (0x1f700, 0x1f773), (0x1f780, 0x1f7d8), (0x1f7e0, 0x1f7eb), (0x1f7f0, 0x1f7f0),
   (0x1f800, 0x1f80b), (0x1f810, 0x1f847), (0x1f850, 0x1f859), (0x1f860, 0x1f887),
   (0x1f890, 0x1f8ad), (0x1f8b0, 0x1f8b1), (0x1f900, 0x1fa53), (0x1fa60, 0x1fa6d),
   (0x1fa70, 0x1fa74), (0x1fa78, 0x1fa7c), (0x1fa80, 0x1fa86), (0x1fa90, 0x1faac),
   (0x1fab0, 0x1faba), (0x1fac0, 0x1fac5), (0x1fad0, 0x1fad9), (0x1fae0, 0x1fae7),
   (0x1faf0, 0x1faf6), (0x1fb00, 0x1fb92), (0x1fb94, 0x1fbca), (0xe0100, 0xe01ef)]

def isPrintable (c : Char) : Bool :=
  if c.toNat < 128 then decide (32 ≤ c.toNat ∧ c.toNat < 127)
  else isLetter c || isNumeric c || inRanges printableRanges c.toNat

end WordC.Text
