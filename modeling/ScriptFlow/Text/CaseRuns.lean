import ScriptFlow.Text.CodeSet

/-! Letter case of characters: which take part in case, and what their other case is. Runs give the
letters whose case partner is a single character; the few with longer partners are listed apart. -/

namespace ScriptFlow.Text

/-- The characters `first, first + stride, …, last`; the partner of each lies `offset` away. -/
structure CaseRun where
  first : Nat
  last : Nat
  stride : Nat
  offset : Int

def CaseRun.covers (r : CaseRun) (n : Nat) : Bool :=
  r.first ≤ n && n ≤ r.last && (n - r.first) % r.stride == 0

def CaseRun.mirrored (r : CaseRun) : CaseRun :=
  ⟨(r.first + r.offset).toNat, (r.last + r.offset).toNat, r.stride, -r.offset⟩

def CaseRun.single (letter : Nat) (offset : Int) : CaseRun := ⟨letter, letter, 1, offset⟩

/-- Small letters that come right after their capitals: the ends of rows of such letters. -/
def alternating : List (Nat × Nat) :=
  [
    (0x101, 0x12f), (0x133, 0x137), (0x13a, 0x148), (0x14b, 0x177), (0x17a, 0x17e), (0x183, 0x185),
    (0x188, 0x188), (0x18c, 0x18c), (0x192, 0x192), (0x199, 0x199), (0x1a1, 0x1a5), (0x1a8, 0x1a8),
    (0x1ad, 0x1ad), (0x1b0, 0x1b0), (0x1b4, 0x1b6), (0x1b9, 0x1b9), (0x1bd, 0x1bd), (0x1ce, 0x1dc),
    (0x1df, 0x1ef), (0x1f5, 0x1f5), (0x1f9, 0x21f), (0x223, 0x233), (0x23c, 0x23c), (0x242, 0x242),
    (0x247, 0x24f), (0x371, 0x373), (0x377, 0x377), (0x3d9, 0x3ef), (0x3f8, 0x3f8), (0x3fb, 0x3fb),
    (0x461, 0x481), (0x48b, 0x4bf), (0x4c2, 0x4ce), (0x4d1, 0x52f), (0x1c8a, 0x1c8a),
    (0x1e01, 0x1e95), (0x1ea1, 0x1eff), (0x2184, 0x2184), (0x2c61, 0x2c61), (0x2c68, 0x2c6c),
    (0x2c73, 0x2c73), (0x2c76, 0x2c76), (0x2c81, 0x2ce3), (0x2cec, 0x2cee), (0x2cf3, 0x2cf3),
    (0xa641, 0xa66d), (0xa681, 0xa69b), (0xa723, 0xa72f), (0xa733, 0xa76f), (0xa77a, 0xa77c),
    (0xa77f, 0xa787), (0xa78c, 0xa78c), (0xa791, 0xa793), (0xa797, 0xa7a9), (0xa7b5, 0xa7c3),
    (0xa7c8, 0xa7ca), (0xa7cd, 0xa7db), (0xa7f6, 0xa7f6)]

/-- Other small letters whose neighbours have their capitals elsewhere. -/
def isolated : List (Nat × Int) :=
  [
    (0xff, 0x79), (0x180, 0xc3), (0x195, 0x61), (0x19a, 0xa3), (0x19b, 0xa641), (0x19e, 0x82),
    (0x1bf, 0x38), (0x1c6, -0x2), (0x1c9, -0x2), (0x1cc, -0x2), (0x1dd, -0x4f), (0x1f3, -0x2),
    (0x250, 0x2a1f), (0x251, 0x2a1c), (0x252, 0x2a1e), (0x253, -0xd2), (0x254, -0xce),
    (0x259, -0xca), (0x25b, -0xcb), (0x25c, 0xa54f), (0x260, -0xcd), (0x261, 0xa54b),
    (0x263, -0xcf), (0x264, 0xa567), (0x265, 0xa528), (0x266, 0xa544), (0x268, -0xd1),
    (0x269, -0xd3), (0x26a, 0xa544), (0x26b, 0x29f7), (0x26c, 0xa541), (0x26f, -0xd3),
    (0x271, 0x29fd), (0x272, -0xd5), (0x275, -0xd6), (0x27d, 0x29e7), (0x280, -0xda),
    (0x282, 0xa543), (0x283, -0xda), (0x287, 0xa52a), (0x288, -0xda), (0x289, -0x45),
    (0x28c, -0x47), (0x292, -0xdb), (0x29d, 0xa515), (0x29e, 0xa512), (0x3ac, -0x26),
    (0x3cc, -0x40), (0x3d7, -0x8), (0x3f2, 0x7), (0x3f3, -0x74), (0x4cf, -0xf), (0x1d79, 0x8a04),
    (0x1d7d, 0xee6), (0x1d8e, 0x8a38), (0x1fe5, 0x7), (0x214e, -0x1c), (0x2c65, -0x2a2b),
    (0x2c66, -0x2a28), (0x2d27, -0x1c60), (0x2d2d, -0x1c60), (0xa794, 0x30), (0xab53, -0x3a0),
    (0x105bc, -0x27)]

/-- Small letters and capitals that are each other's partner. -/
def pairRuns : Array CaseRun :=
  (alternating.map fun (first, last) => ⟨first, last, 2, -1⟩).toArray ++
  (isolated.map fun (letter, offset) => .single letter offset).toArray ++ #[
    ⟨0x61, 0x7a, 1, -0x20⟩, ⟨0xe0, 0xf6, 1, -0x20⟩, ⟨0xf8, 0xfe, 1, -0x20⟩,
    ⟨0x23f, 0x240, 1, 0x2a3f⟩, ⟨0x256, 0x257, 1, -0xcd⟩, ⟨0x28a, 0x28b, 1, -0xd9⟩,
    ⟨0x37b, 0x37d, 1, 0x82⟩, ⟨0x3ad, 0x3af, 1, -0x25⟩, ⟨0x3b1, 0x3c1, 1, -0x20⟩,
    ⟨0x3c3, 0x3cb, 1, -0x20⟩, ⟨0x3cd, 0x3ce, 1, -0x3f⟩, ⟨0x430, 0x44f, 1, -0x20⟩,
    ⟨0x450, 0x45f, 1, -0x50⟩, ⟨0x561, 0x586, 1, -0x30⟩, ⟨0x10d0, 0x10fa, 1, 0xbc0⟩,
    ⟨0x10fd, 0x10ff, 1, 0xbc0⟩, ⟨0x13f8, 0x13fd, 1, -0x8⟩, ⟨0x1f00, 0x1f07, 1, 0x8⟩,
    ⟨0x1f10, 0x1f15, 1, 0x8⟩, ⟨0x1f20, 0x1f27, 1, 0x8⟩, ⟨0x1f30, 0x1f37, 1, 0x8⟩,
    ⟨0x1f40, 0x1f45, 1, 0x8⟩, ⟨0x1f51, 0x1f57, 2, 0x8⟩, ⟨0x1f60, 0x1f67, 1, 0x8⟩,
    ⟨0x1f70, 0x1f71, 1, 0x4a⟩, ⟨0x1f72, 0x1f75, 1, 0x56⟩, ⟨0x1f76, 0x1f77, 1, 0x64⟩,
    ⟨0x1f78, 0x1f79, 1, 0x80⟩, ⟨0x1f7a, 0x1f7b, 1, 0x70⟩, ⟨0x1f7c, 0x1f7d, 1, 0x7e⟩,
    ⟨0x1fb0, 0x1fb1, 1, 0x8⟩, ⟨0x1fd0, 0x1fd1, 1, 0x8⟩, ⟨0x1fe0, 0x1fe1, 1, 0x8⟩,
    ⟨0x2170, 0x217f, 1, -0x10⟩, ⟨0x24d0, 0x24e9, 1, -0x1a⟩, ⟨0x2c30, 0x2c5f, 1, -0x30⟩,
    ⟨0x2d00, 0x2d25, 1, -0x1c60⟩, ⟨0xab70, 0xabbf, 1, -0x97d0⟩, ⟨0xff41, 0xff5a, 1, -0x20⟩,
    ⟨0x10428, 0x1044f, 1, -0x28⟩, ⟨0x104d8, 0x104fb, 1, -0x28⟩, ⟨0x10597, 0x105bb, 2, -0x27⟩,
    ⟨0x10598, 0x105a0, 2, -0x27⟩, ⟨0x105a4, 0x105b0, 2, -0x27⟩, ⟨0x105b4, 0x105b8, 2, -0x27⟩,
    ⟨0x10cc0, 0x10cf2, 1, -0x40⟩, ⟨0x10d70, 0x10d85, 1, -0x20⟩, ⟨0x118c0, 0x118df, 1, -0x20⟩,
    ⟨0x16e60, 0x16e7f, 1, -0x20⟩, ⟨0x16ebb, 0x16ed3, 1, -0x1b⟩, ⟨0x1e922, 0x1e943, 1, -0x22⟩]

def upperRuns : Array CaseRun :=
  pairRuns ++ #[
    ⟨0xb5, 0xb5, 1, 0x2e7⟩, ⟨0x131, 0x131, 1, -0xe8⟩, ⟨0x17f, 0x17f, 1, -0x12c⟩,
    ⟨0x1c5, 0x1c5, 1, -0x1⟩, ⟨0x1c8, 0x1c8, 1, -0x1⟩, ⟨0x1cb, 0x1cb, 1, -0x1⟩,
    ⟨0x1f2, 0x1f2, 1, -0x1⟩, ⟨0x345, 0x345, 1, 0x54⟩, ⟨0x3c2, 0x3c2, 1, -0x1f⟩,
    ⟨0x3d0, 0x3d0, 1, -0x3e⟩, ⟨0x3d1, 0x3d1, 1, -0x39⟩, ⟨0x3d5, 0x3d5, 1, -0x2f⟩,
    ⟨0x3d6, 0x3d6, 1, -0x36⟩, ⟨0x3f0, 0x3f0, 1, -0x56⟩, ⟨0x3f1, 0x3f1, 1, -0x50⟩,
    ⟨0x3f5, 0x3f5, 1, -0x60⟩, ⟨0x1c80, 0x1c80, 1, -0x186e⟩, ⟨0x1c81, 0x1c81, 1, -0x186d⟩,
    ⟨0x1c82, 0x1c82, 1, -0x1864⟩, ⟨0x1c83, 0x1c84, 1, -0x1862⟩, ⟨0x1c85, 0x1c85, 1, -0x1863⟩,
    ⟨0x1c86, 0x1c86, 1, -0x185c⟩, ⟨0x1c87, 0x1c87, 1, -0x1825⟩, ⟨0x1c88, 0x1c88, 1, 0x89c2⟩,
    ⟨0x1e9b, 0x1e9b, 1, -0x3b⟩, ⟨0x1fbe, 0x1fbe, 1, -0x1c25⟩]

/-- Greek letters with an iota below, small and capital: in capitals the iota comes after the letter. -/
def iotaBelow : List (Nat × List Nat) :=
  [0x1f08, 0x1f28, 0x1f68].zipIdx.flatMap fun (capital, row) =>
    (List.range 16).map fun i => (0x1f80 + 16 * row + i, [capital + i % 8, 0x399])

/-- Letters whose capital form has several characters. -/
def upperLong : Array (Nat × List Nat) :=
  iotaBelow.toArray ++ #[
    (0xdf, [0x53, 0x53]), (0x149, [0x2bc, 0x4e]), (0x1f0, [0x4a, 0x30c]),
    (0x390, [0x399, 0x308, 0x301]), (0x3b0, [0x3a5, 0x308, 0x301]), (0x587, [0x535, 0x552]),
    (0x1e96, [0x48, 0x331]), (0x1e97, [0x54, 0x308]), (0x1e98, [0x57, 0x30a]),
    (0x1e99, [0x59, 0x30a]), (0x1e9a, [0x41, 0x2be]), (0x1f50, [0x3a5, 0x313]),
    (0x1f52, [0x3a5, 0x313, 0x300]), (0x1f54, [0x3a5, 0x313, 0x301]),
    (0x1f56, [0x3a5, 0x313, 0x342]), (0x1fb2, [0x1fba, 0x399]), (0x1fb3, [0x391, 0x399]),
    (0x1fb4, [0x386, 0x399]), (0x1fb6, [0x391, 0x342]), (0x1fb7, [0x391, 0x342, 0x399]),
    (0x1fbc, [0x391, 0x399]), (0x1fc2, [0x1fca, 0x399]), (0x1fc3, [0x397, 0x399]),
    (0x1fc4, [0x389, 0x399]), (0x1fc6, [0x397, 0x342]), (0x1fc7, [0x397, 0x342, 0x399]),
    (0x1fcc, [0x397, 0x399]), (0x1fd2, [0x399, 0x308, 0x300]), (0x1fd3, [0x399, 0x308, 0x301]),
    (0x1fd6, [0x399, 0x342]), (0x1fd7, [0x399, 0x308, 0x342]), (0x1fe2, [0x3a5, 0x308, 0x300]),
    (0x1fe3, [0x3a5, 0x308, 0x301]), (0x1fe4, [0x3a1, 0x313]), (0x1fe6, [0x3a5, 0x342]),
    (0x1fe7, [0x3a5, 0x308, 0x342]), (0x1ff2, [0x1ffa, 0x399]), (0x1ff3, [0x3a9, 0x399]),
    (0x1ff4, [0x38f, 0x399]), (0x1ff6, [0x3a9, 0x342]), (0x1ff7, [0x3a9, 0x342, 0x399]),
    (0x1ffc, [0x3a9, 0x399]), (0xfb00, [0x46, 0x46]), (0xfb01, [0x46, 0x49]),
    (0xfb02, [0x46, 0x4c]), (0xfb03, [0x46, 0x46, 0x49]), (0xfb04, [0x46, 0x46, 0x4c]),
    (0xfb05, [0x53, 0x54]), (0xfb06, [0x53, 0x54]), (0xfb13, [0x544, 0x546]),
    (0xfb14, [0x544, 0x535]), (0xfb15, [0x544, 0x53b]), (0xfb16, [0x54e, 0x546]),
    (0xfb17, [0x544, 0x53d])]

def lowerRuns : Array CaseRun :=
  pairRuns.map CaseRun.mirrored ++ #[
    ⟨0x1c5, 0x1c5, 1, 0x1⟩, ⟨0x1c8, 0x1c8, 1, 0x1⟩, ⟨0x1cb, 0x1cb, 1, 0x1⟩, ⟨0x1f2, 0x1f2, 1, 0x1⟩,
    ⟨0x3f4, 0x3f4, 1, -0x3c⟩, ⟨0x1e9e, 0x1e9e, 1, -0x1dbf⟩, ⟨0x1f88, 0x1f8f, 1, -0x8⟩,
    ⟨0x1f98, 0x1f9f, 1, -0x8⟩, ⟨0x1fa8, 0x1faf, 1, -0x8⟩, ⟨0x1fbc, 0x1fbc, 1, -0x9⟩,
    ⟨0x1fcc, 0x1fcc, 1, -0x9⟩, ⟨0x1ffc, 0x1ffc, 1, -0x9⟩, ⟨0x2126, 0x2126, 1, -0x1d5d⟩,
    ⟨0x212a, 0x212a, 1, -0x20bf⟩, ⟨0x212b, 0x212b, 1, -0x2046⟩]

/-- Letters whose small form has several characters. -/
def lowerLong : Array (Nat × List Nat) :=
  #[
    (0x130, [0x69, 0x307])]

def cased : CodeSet :=
  ⟨[
    65, 26, 6, 26, 47, 1, 10, 1, 4, 1, 5, 23, 1, 31, 1, 195, 1, 4, 4, 208, 2, 35, 7, 2, 30, 5,
    96, 1, 42, 4, 2, 2, 2, 4, 1, 1, 6, 1, 1, 3, 1, 1, 1, 20, 1, 83, 1, 139, 8, 166, 1, 38, 9,
    41, 2839, 38, 1, 1, 5, 1, 2, 43, 1, 4, 672, 86, 2, 6, 2178, 11, 5, 43, 2, 3, 64, 192, 64,
    278, 2, 6, 2, 38, 2, 6, 2, 8, 1, 1, 1, 1, 1, 1, 1, 31, 2, 53, 1, 7, 1, 1, 3, 3, 1, 7, 3, 4,
    2, 6, 4, 13, 5, 3, 1, 7, 116, 1, 13, 1, 16, 13, 101, 1, 4, 1, 2, 10, 1, 1, 3, 5, 6, 1, 1,
    1, 1, 1, 1, 4, 1, 6, 4, 1, 2, 4, 5, 5, 4, 1, 17, 32, 3, 2, 817, 52, 1814, 229, 6, 4, 3, 2,
    12, 38, 1, 1, 5, 1, 30994, 46, 18, 30, 132, 102, 3, 4, 1, 77, 20, 6, 1, 3, 821, 43, 1, 14,
    6, 80, 20288, 7, 12, 5, 1033, 26, 6, 26, 1189, 80, 96, 36, 4, 36, 116, 11, 1, 15, 1, 7, 1,
    2, 1, 11, 1, 15, 1, 7, 1, 2, 451, 1, 2, 3, 1, 42, 1, 9, 1221, 51, 13, 51, 93, 22, 10, 22,
    2842, 64, 21856, 64, 32, 25, 2, 25, 25900, 85, 1, 71, 1, 2, 2, 1, 2, 2, 2, 4, 1, 12, 1, 1,
    1, 7, 1, 65, 1, 4, 2, 8, 1, 7, 1, 28, 1, 4, 1, 5, 1, 1, 3, 7, 1, 340, 2, 25, 1, 25, 1, 31,
    1, 25, 1, 31, 1, 25, 1, 31, 1, 25, 1, 31, 1, 25, 1, 8, 1844, 10, 1, 20, 6, 6, 261, 62,
    2194, 68, 2028, 26, 6, 26, 6, 26]⟩

/-- Characters skipped when the letters around a sigma are looked at. -/
def caseIgnorable : CodeSet :=
  ⟨[
    39, 1, 6, 1, 11, 1, 35, 1, 1, 1, 71, 1, 4, 1, 1, 1, 4, 1, 2, 2, 503, 192, 4, 2, 4, 1, 9, 2,
    1, 1, 251, 7, 207, 1, 5, 1, 49, 45, 1, 1, 1, 2, 1, 2, 1, 1, 44, 1, 11, 6, 10, 11, 1, 1, 35,
    1, 10, 21, 16, 1, 101, 8, 1, 10, 1, 4, 33, 1, 1, 1, 30, 27, 91, 11, 58, 11, 4, 1, 2, 1, 24,
    24, 43, 3, 44, 1, 7, 2, 5, 9, 41, 58, 55, 1, 1, 1, 4, 8, 4, 1, 3, 7, 10, 2, 13, 1, 15, 1,
    58, 1, 4, 4, 8, 1, 20, 2, 26, 1, 2, 2, 57, 1, 4, 2, 4, 2, 2, 3, 3, 1, 30, 2, 3, 1, 11, 2,
    57, 1, 4, 5, 1, 2, 4, 1, 20, 2, 22, 6, 1, 1, 58, 1, 2, 1, 1, 4, 8, 1, 7, 2, 11, 2, 30, 1,
    61, 1, 12, 1, 50, 1, 3, 1, 55, 1, 1, 3, 5, 3, 1, 4, 7, 2, 11, 2, 29, 1, 58, 1, 2, 1, 6, 1,
    5, 2, 20, 2, 28, 2, 57, 2, 4, 4, 8, 1, 20, 2, 29, 1, 72, 1, 7, 3, 1, 1, 90, 1, 2, 7, 11, 9,
    98, 1, 2, 9, 9, 1, 1, 7, 73, 2, 27, 1, 1, 1, 1, 1, 55, 14, 1, 5, 1, 2, 5, 11, 1, 36, 9, 1,
    102, 4, 1, 6, 1, 2, 2, 2, 25, 2, 4, 3, 16, 4, 13, 1, 2, 2, 6, 1, 15, 1, 94, 1, 608, 3, 946,
    3, 29, 2, 30, 2, 30, 2, 64, 2, 1, 7, 8, 1, 2, 11, 3, 1, 5, 1, 45, 5, 51, 1, 65, 2, 34, 1,
    118, 3, 4, 2, 9, 1, 6, 3, 219, 2, 2, 1, 58, 1, 1, 7, 1, 1, 1, 1, 2, 8, 6, 10, 2, 1, 39, 1,
    8, 46, 2, 12, 20, 4, 48, 1, 1, 5, 1, 1, 5, 1, 40, 9, 12, 2, 32, 4, 2, 2, 1, 3, 56, 1, 1, 2,
    3, 1, 1, 3, 58, 8, 2, 2, 64, 6, 82, 3, 1, 13, 1, 7, 4, 1, 6, 1, 3, 2, 50, 63, 13, 1, 34,
    101, 445, 1, 1, 3, 11, 3, 13, 3, 13, 3, 13, 2, 12, 5, 8, 2, 10, 1, 2, 1, 2, 5, 49, 5, 1,
    10, 1, 1, 13, 1, 16, 13, 51, 33, 2955, 2, 113, 3, 125, 1, 15, 1, 96, 32, 47, 1, 469, 1, 36,
    4, 3, 5, 5, 1, 93, 6, 93, 3, 28438, 1, 1250, 6, 270, 1, 98, 4, 1, 10, 1, 1, 28, 4, 80, 2,
    14, 34, 78, 1, 23, 3, 102, 4, 3, 2, 8, 1, 3, 1, 4, 1, 25, 2, 5, 1, 151, 2, 26, 18, 13, 1,
    38, 8, 25, 11, 46, 3, 48, 1, 2, 4, 2, 2, 17, 1, 21, 2, 66, 6, 2, 2, 2, 2, 12, 1, 8, 1, 35,
    1, 11, 1, 51, 1, 1, 3, 2, 2, 5, 2, 1, 1, 27, 1, 14, 2, 5, 2, 1, 1, 100, 5, 9, 3, 121, 1, 2,
    1, 4, 1, 20272, 1, 147, 17, 573, 16, 3, 1, 12, 16, 34, 1, 2, 1, 169, 1, 7, 1, 6, 1, 11, 1,
    35, 1, 1, 1, 47, 1, 45, 2, 67, 1, 21, 3, 513, 1, 226, 1, 149, 5, 1029, 6, 1, 42, 1, 9, 582,
    3, 1, 2, 5, 4, 40, 3, 4, 1, 165, 2, 573, 4, 38, 1, 26, 5, 1, 1, 315, 2, 24, 1, 52, 6, 70,
    11, 49, 4, 123, 1, 54, 15, 41, 1, 2, 2, 10, 3, 49, 4, 2, 2, 2, 1, 4, 1, 10, 1, 50, 3, 36,
    5, 1, 8, 62, 1, 12, 2, 52, 9, 10, 4, 2, 1, 95, 3, 2, 1, 1, 2, 6, 1, 2, 1, 157, 1, 3, 8, 21,
    2, 57, 2, 3, 1, 37, 7, 3, 5, 70, 6, 13, 1, 1, 1, 1, 1, 14, 2, 85, 8, 2, 3, 1, 1, 23, 1, 84,
    6, 1, 1, 4, 2, 1, 2, 238, 4, 6, 2, 1, 2, 27, 2, 85, 8, 2, 1, 1, 2, 106, 1, 1, 1, 2, 6, 1,
    1, 101, 1, 1, 1, 2, 4, 1, 5, 259, 9, 1, 2, 256, 2, 1, 1, 4, 1, 144, 4, 2, 2, 4, 1, 32, 10,
    40, 6, 2, 4, 8, 1, 9, 6, 2, 3, 46, 13, 1, 2, 198, 1, 1, 3, 1, 1, 201, 7, 1, 6, 1, 1, 82,
    22, 2, 7, 1, 2, 1, 2, 122, 6, 3, 1, 1, 2, 1, 7, 1, 1, 72, 2, 3, 1, 1, 1, 65, 1, 281, 2, 11,
    2, 52, 5, 5, 1, 1, 1, 23, 1, 5333, 17, 6, 15, 11464, 12, 3, 3, 2496, 5, 59, 7, 9, 4, 508,
    3, 40, 2, 482, 1, 63, 17, 64, 2, 1, 2, 13, 2, 16380, 4, 1, 7, 1, 2, 3230, 2, 1, 4, 4700,
    46, 2, 23, 544, 3, 9, 16, 2, 7, 30, 4, 148, 3, 1979, 55, 4, 50, 8, 1, 14, 1, 22, 5, 1, 15,
    1360, 7, 1, 17, 2, 7, 1, 2, 1, 5, 5, 62, 33, 1, 160, 14, 368, 1, 61, 4, 507, 5, 254, 2,
    243, 1, 2, 1, 7, 2, 5, 1, 9, 1, 464, 7, 109, 8, 2735, 5, 789505, 1, 30, 96, 128, 240]⟩

end ScriptFlow.Text
