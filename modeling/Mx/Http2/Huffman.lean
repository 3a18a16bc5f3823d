import Mx.Core.BitTrie
import Mx.Http2.HpackTable

/-!
# Huffman codes

The tables of codes for decoding and for encoding, the tree that is built from the first, the table
that decodes a whole byte at the root, the three decoders and the encoder. The children that the
program stores as `-1` are none here.
-/

namespace Mx.Http2

open Mx.Core

/-! ## The tree -/

/-- `huffLeft`, `huffRight` and `huffSym`: the children for a zero and for a one, and the labels. -/
abbrev HuffTree := BitTrie Nat

/-- `HuffEOS`. -/
def huffEOS : Nat := 256

/-- The codes that `InitHuffTree` inserts, each with its length and its symbol. The first bit of a
code is the one of value `2^31`. -/
def huffCodes : List (Nat × Nat × Nat) :=
  [(4290772992, 13, 0), (4294946816, 23, 1), (4294966816, 28, 2), (4294966832, 28, 3),
    (4294966848, 28, 4), (4294966864, 28, 5), (4294966880, 28, 6), (4294966896, 28, 7),
    (4294966912, 28, 8), (4294961664, 24, 9), (4294967280, 30, 10), (4294966928, 28, 11),
    (4294966944, 28, 12), (4294967284, 30, 13), (4294966960, 28, 14), (4294966976, 28, 15),
    (4294966992, 28, 16), (4294967008, 28, 17), (4294967024, 28, 18), (4294967040, 28, 19),
    (4294967056, 28, 20), (4294967072, 28, 21), (4294967288, 30, 22), (4294967088, 28, 23),
    (4294967104, 28, 24), (4294967120, 28, 25), (4294967136, 28, 26), (4294967152, 28, 27),
    (4294967168, 28, 28), (4294967184, 28, 29), (4294967200, 28, 30), (4294967216, 28, 31),
    (1342177280, 6, 32), (4261412864, 10, 33), (4265607168, 10, 34), (4288675840, 12, 35),
    (4291297280, 13, 36), (1409286144, 6, 37), (4160749568, 8, 38), (4282384384, 11, 39),
    (4269801472, 10, 40), (4273995776, 10, 41), (4177526784, 8, 42), (4284481536, 11, 43),
    (4194304000, 8, 44), (1476395008, 6, 45), (1543503872, 6, 46), (1610612736, 6, 47),
    (0, 5, 48), (134217728, 5, 49), (268435456, 5, 50), (1677721600, 6, 51), (1744830464, 6, 52),
    (1811939328, 6, 53), (1879048192, 6, 54), (1946157056, 6, 55), (2013265920, 6, 56),
    (2080374784, 6, 57), (3087007744, 7, 58), (4211081216, 8, 59), (4294443008, 15, 60),
    (2147483648, 6, 61), (4289724416, 12, 62), (4278190080, 10, 63), (4291821568, 13, 64),
    (2214592512, 6, 65), (3120562176, 7, 66), (3154116608, 7, 67), (3187671040, 7, 68),
    (3221225472, 7, 69), (3254779904, 7, 70), (3288334336, 7, 71), (3321888768, 7, 72),
    (3355443200, 7, 73), (3388997632, 7, 74), (3422552064, 7, 75), (3456106496, 7, 76),
    (3489660928, 7, 77), (3523215360, 7, 78), (3556769792, 7, 79), (3590324224, 7, 80),
    (3623878656, 7, 81), (3657433088, 7, 82), (3690987520, 7, 83), (3724541952, 7, 84),
    (3758096384, 7, 85), (3791650816, 7, 86), (3825205248, 7, 87), (4227858432, 8, 88),
    (3858759680, 7, 89), (4244635648, 8, 90), (4292345856, 13, 91), (4294836224, 19, 92),
    (4292870144, 13, 93), (4293918720, 14, 94), (2281701376, 6, 95), (4294574080, 15, 96),
    (402653184, 5, 97), (2348810240, 6, 98), (536870912, 5, 99), (2415919104, 6, 100),
    (671088640, 5, 101), (2483027968, 6, 102), (2550136832, 6, 103), (2617245696, 6, 104),
    (805306368, 5, 105), (3892314112, 7, 106), (3925868544, 7, 107), (2684354560, 6, 108),
    (2751463424, 6, 109), (2818572288, 6, 110), (939524096, 5, 111), (2885681152, 6, 112),
    (3959422976, 7, 113), (2952790016, 6, 114), (1073741824, 5, 115), (1207959552, 5, 116),
    (3019898880, 6, 117), (3992977408, 7, 118), (4026531840, 7, 119), (4060086272, 7, 120),
    (4093640704, 7, 121), (4127195136, 7, 122), (4294705152, 15, 123), (4286578688, 11, 124),
    (4294180864, 14, 125), (4293394432, 13, 126), (4294967232, 28, 127), (4294860800, 20, 128),
    (4294920192, 22, 129), (4294864896, 20, 130), (4294868992, 20, 131), (4294921216, 22, 132),
    (4294922240, 22, 133), (4294923264, 22, 134), (4294947328, 23, 135), (4294924288, 22, 136),
    (4294947840, 23, 137), (4294948352, 23, 138), (4294948864, 23, 139), (4294949376, 23, 140),
    (4294949888, 23, 141), (4294961920, 24, 142), (4294950400, 23, 143), (4294962176, 24, 144),
    (4294962432, 24, 145), (4294925312, 22, 146), (4294950912, 23, 147), (4294962688, 24, 148),
    (4294951424, 23, 149), (4294951936, 23, 150), (4294952448, 23, 151), (4294952960, 23, 152),
    (4294893568, 21, 153), (4294926336, 22, 154), (4294953472, 23, 155), (4294927360, 22, 156),
    (4294953984, 23, 157), (4294954496, 23, 158), (4294962944, 24, 159), (4294928384, 22, 160),
    (4294895616, 21, 161), (4294873088, 20, 162), (4294929408, 22, 163), (4294930432, 22, 164),
    (4294955008, 23, 165), (4294955520, 23, 166), (4294897664, 21, 167), (4294956032, 23, 168),
    (4294931456, 22, 169), (4294932480, 22, 170), (4294963200, 24, 171), (4294899712, 21, 172),
    (4294933504, 22, 173), (4294956544, 23, 174), (4294957056, 23, 175), (4294901760, 21, 176),
    (4294903808, 21, 177), (4294934528, 22, 178), (4294905856, 21, 179), (4294957568, 23, 180),
    (4294935552, 22, 181), (4294958080, 23, 182), (4294958592, 23, 183), (4294877184, 20, 184),
    (4294936576, 22, 185), (4294937600, 22, 186), (4294938624, 22, 187), (4294959104, 23, 188),
    (4294939648, 22, 189), (4294940672, 22, 190), (4294959616, 23, 191), (4294965248, 26, 192),
    (4294965312, 26, 193), (4294881280, 20, 194), (4294844416, 19, 195), (4294941696, 22, 196),
    (4294960128, 23, 197), (4294942720, 22, 198), (4294964736, 25, 199), (4294965376, 26, 200),
    (4294965440, 26, 201), (4294965504, 26, 202), (4294966208, 27, 203), (4294966240, 27, 204),
    (4294965568, 26, 205), (4294963456, 24, 206), (4294964864, 25, 207), (4294852608, 19, 208),
    (4294907904, 21, 209), (4294965632, 26, 210), (4294966272, 27, 211), (4294966304, 27, 212),
    (4294965696, 26, 213), (4294966336, 27, 214), (4294963712, 24, 215), (4294909952, 21, 216),
    (4294912000, 21, 217), (4294965760, 26, 218), (4294965824, 26, 219), (4294967248, 28, 220),
    (4294966368, 27, 221), (4294966400, 27, 222), (4294966432, 27, 223), (4294885376, 20, 224),
    (4294963968, 24, 225), (4294889472, 20, 226), (4294914048, 21, 227), (4294943744, 22, 228),
    (4294916096, 21, 229), (4294918144, 21, 230), (4294960640, 23, 231), (4294944768, 22, 232),
    (4294945792, 22, 233), (4294964992, 25, 234), (4294965120, 25, 235), (4294964224, 24, 236),
    (4294964480, 24, 237), (4294965888, 26, 238), (4294961152, 23, 239), (4294965952, 26, 240),
    (4294966464, 27, 241), (4294966016, 26, 242), (4294966080, 26, 243), (4294966496, 27, 244),
    (4294966528, 27, 245), (4294966560, 27, 246), (4294966592, 27, 247), (4294966624, 27, 248),
    (4294967264, 28, 249), (4294966656, 27, 250), (4294966688, 27, 251), (4294966720, 27, 252),
    (4294966752, 27, 253), (4294966784, 27, 254), (4294966144, 26, 255), (4294967292, 30, 256)]

/-- The bits of a code from a mask on. -/
def codeBits : Nat → Nat → Nat → List Bool
  | 0, _, _ => []
  | bits + 1, code, mask => decide (code / mask % 2 = 1) :: codeBits bits code (mask / 2)

/-- `HuffInsert`. -/
def huffInsert (tree : HuffTree) (code bits sym : Nat) : HuffTree :=
  tree.insert (codeBits bits code 2147483648) sym

/-- `InitHuffTree`, in arrays with any contents. -/
def initHuffTree (arrays : HuffTree) : HuffTree :=
  huffCodes.foldl (fun tree e => huffInsert tree e.1 e.2.1 e.2.2) arrays.clear

/-! ## Decoding -/

/-- `HuffAccelEntry`. -/
structure HuffAccelEntry where
  sym : Option Nat
  bitsUsed : Nat
  nodeAfter8 : Nat

/-- Why a decoder fails: a child is missing, the end of the string is coded, or there is no room. -/
inductive HuffFault where
  | missing
  | eos
  | full
  deriving DecidableEq, Repr

section Decoders

variable {α : Type} (tree : HuffTree) (emit : α → Nat → Option α)

/-- The loop of `BuildHuffAccel` over the bits of a byte, none if it leaves the tree. -/
def accelLoop : Nat → Nat → Nat → Nat → Option HuffAccelEntry
  | 0, _, _, node => some ⟨none, 0, node⟩
  | n + 1, b, bitsConsumed, node =>
    match tree.child (decide (b ≥ 128)) node with
    | none => none
    | some node =>
      match tree.label node with
      | some sym => some ⟨some sym, bitsConsumed + 1, 0⟩
      | none => accelLoop n (b % 128 * 2) (bitsConsumed + 1) node

/-- `huffAccel`, as `BuildHuffAccel` sets it. -/
def huffAccel (byteVal : Nat) : Option HuffAccelEntry := accelLoop tree 8 byteVal 0 0

/-- A symbol is decoded. -/
def emitSym (acc : α) (sym : Nat) : Except HuffFault α :=
  if sym = huffEOS then .error .eos
  else
    match emit acc sym with
    | none => .error .full
    | some acc => .ok acc

/-- `HuffWalkBit`. -/
def huffWalkBit (bit : Bool) (node : Nat) (acc : α) : Except HuffFault (Nat × α) :=
  match tree.child bit node with
  | none => .error .missing
  | some node =>
    match tree.label node with
    | none => .ok (node, acc)
    | some sym =>
      match emitSym emit acc sym with
      | .error e => .error e
      | .ok acc => .ok (0, acc)

/-- The loop over so many bits of a byte. -/
def walkByte : Nat → Nat → Nat → α → Except HuffFault (Nat × α)
  | 0, _, node, acc => .ok (node, acc)
  | n + 1, byt, node, acc =>
    match huffWalkBit tree emit (decide (byt ≥ 128)) node acc with
    | .error e => .error e
    | .ok (node, acc) => walkByte n (byt % 128 * 2) node acc

/-- The byte without the bits that were used, and how many are left. -/
def shiftOut (bitsUsed byt : Nat) : Nat × Nat :=
  match bitsUsed with
  | 1 => (byt % 128 * 2, 7)
  | 2 => (byt % 64 * 4, 6)
  | 3 => (byt % 32 * 8, 5)
  | 4 => (byt % 16 * 16, 4)
  | 5 => (byt % 8 * 32, 3)
  | 6 => (byt % 4 * 64, 2)
  | 7 => (byt % 2 * 128, 1)
  | _ => (byt, 0)

/-- A round of the loop over the bytes. -/
def decodeByte (byt node : Nat) (acc : α) : Except HuffFault (Nat × α) :=
  if node = 0 then
    match huffAccel tree byt with
    | none => .error .missing
    | some a =>
      match a.sym with
      | none => .ok (a.nodeAfter8, acc)
      | some sym =>
        match emitSym emit acc sym with
        | .error e => .error e
        | .ok acc =>
          walkByte tree emit (shiftOut a.bitsUsed byt).2 (shiftOut a.bitsUsed byt).1 0 acc
  else walkByte tree emit 8 byt node acc

/-- The loop over the bytes. -/
def decodeBytes : List UInt8 → Nat → α → Except HuffFault α
  | [], _, acc => .ok acc
  | byt :: bytes, node, acc =>
    match decodeByte tree emit byt.toNat node acc with
    | .error e => .error e
    | .ok (node, acc) => decodeBytes bytes node acc

/-- A byte appended where there is room for it. -/
def appendRoom (maxLen : Nat) (arr : List UInt8) (sym : Nat) : Option (List UInt8) :=
  if arr.length ≥ maxLen then none else some (arr ++ [UInt8.ofNat (sym % 256)])

/-- `HuffDecode`. -/
def huffDecode (v : List UInt8) (start encLen maxLen : Nat) : Except HuffFault (List UInt8) :=
  decodeBytes tree (appendRoom maxLen) ((v.drop start).take (card (start + encLen) - start)) 0 []

/-- `HuffmanDecode`. -/
def huffmanDecode (src : List UInt8) (dstMax : Nat) : Except HuffFault (List UInt8) :=
  decodeBytes tree (appendRoom dstMax) src 0 []

/-- `HuffmanDecodedLength`, zero when it fails. -/
def huffmanDecodedLength (src : List UInt8) : Nat :=
  match decodeBytes tree (fun count _ => some (count + 1)) src 0 0 with
  | .error _ => 0
  | .ok count => count

end Decoders

/-! ## Encoding -/

/-- The entries that `InitHuffEnc` sets: the symbol, its code and the length of this. -/
def huffEncTable : List (Nat × Nat × Nat) :=
  [(0, 8184, 13), (1, 8388568, 23), (2, 268435426, 28), (3, 268435427, 28), (4, 268435428, 28),
    (5, 268435429, 28), (6, 268435430, 28), (7, 268435431, 28), (8, 268435432, 28),
    (9, 16777194, 24), (10, 1073741820, 30), (11, 268435433, 28), (12, 268435434, 28),
    (13, 1073741821, 30), (14, 268435435, 28), (15, 268435436, 28), (16, 268435437, 28),
    (17, 268435438, 28), (18, 268435439, 28), (19, 268435440, 28), (20, 268435441, 28),
    (21, 268435442, 28), (22, 1073741822, 30), (23, 268435443, 28), (24, 268435444, 28),
    (25, 268435445, 28), (26, 268435446, 28), (27, 268435447, 28), (28, 268435448, 28),
    (29, 268435449, 28), (30, 268435450, 28), (31, 268435451, 28), (32, 20, 6), (33, 1016, 10),
    (34, 1017, 10), (35, 4090, 12), (36, 8185, 13), (37, 21, 6), (38, 248, 8), (39, 2042, 11),
    (40, 1018, 10), (41, 1019, 10), (42, 249, 8), (43, 2043, 11), (44, 250, 8), (45, 22, 6),
    (46, 23, 6), (47, 24, 6), (48, 0, 5), (49, 1, 5), (50, 2, 5), (51, 25, 6), (52, 26, 6),
    (53, 27, 6), (54, 28, 6), (55, 29, 6), (56, 30, 6), (57, 31, 6), (58, 92, 7), (59, 251, 8),
    (60, 32764, 15), (61, 32, 6), (62, 4091, 12), (63, 1020, 10), (64, 8186, 13), (65, 33, 6),
    (66, 93, 7), (67, 94, 7), (68, 95, 7), (69, 96, 7), (70, 97, 7), (71, 98, 7), (72, 99, 7),
    (73, 100, 7), (74, 101, 7), (75, 102, 7), (76, 103, 7), (77, 104, 7), (78, 105, 7),
    (79, 106, 7), (80, 107, 7), (81, 108, 7), (82, 109, 7), (83, 110, 7), (84, 111, 7),
    (85, 112, 7), (86, 113, 7), (87, 114, 7), (88, 252, 8), (89, 115, 7), (90, 253, 8),
    (91, 8187, 13), (92, 524272, 19), (93, 8188, 13), (94, 16382, 14), (95, 34, 6),
    (96, 32765, 15), (97, 3, 5), (98, 35, 6), (99, 4, 5), (100, 36, 6), (101, 5, 5),
    (102, 37, 6), (103, 38, 6), (104, 39, 6), (105, 6, 5), (106, 116, 7), (107, 117, 7),
    (108, 40, 6), (109, 41, 6), (110, 42, 6), (111, 7, 5), (112, 43, 6), (113, 118, 7),
    (114, 44, 6), (115, 8, 5), (116, 9, 5), (117, 45, 6), (118, 119, 7), (119, 120, 7),
    (120, 121, 7), (121, 122, 7), (122, 123, 7), (123, 32766, 15), (124, 2044, 11),
    (125, 16383, 14), (126, 8189, 13), (127, 268435452, 28), (128, 1048550, 20),
    (129, 4194258, 22), (130, 1048551, 20), (131, 1048552, 20), (132, 4194259, 22),
    (133, 4194260, 22), (134, 4194261, 22), (135, 8388569, 23), (136, 4194262, 22),
    (137, 8388570, 23), (138, 8388571, 23), (139, 8388572, 23), (140, 8388573, 23),
    (141, 8388574, 23), (142, 16777195, 24), (143, 8388575, 23), (144, 16777196, 24),
    (145, 16777197, 24), (146, 4194263, 22), (147, 8388576, 23), (148, 16777198, 24),
    (149, 8388577, 23), (150, 8388578, 23), (151, 8388579, 23), (152, 8388580, 23),
    (153, 2097116, 21), (154, 4194264, 22), (155, 8388581, 23), (156, 4194265, 22),
    (157, 8388582, 23), (158, 8388583, 23), (159, 16777199, 24), (160, 4194266, 22),
    (161, 2097117, 21), (162, 1048553, 20), (163, 4194267, 22), (164, 4194268, 22),
    (165, 8388584, 23), (166, 8388585, 23), (167, 2097118, 21), (168, 8388586, 23),
    (169, 4194269, 22), (170, 4194270, 22), (171, 16777200, 24), (172, 2097119, 21),
    (173, 4194271, 22), (174, 8388587, 23), (175, 8388588, 23), (176, 2097120, 21),
    (177, 2097121, 21), (178, 4194272, 22), (179, 2097122, 21), (180, 8388589, 23),
    (181, 4194273, 22), (182, 8388590, 23), (183, 8388591, 23), (184, 1048554, 20),
    (185, 4194274, 22), (186, 4194275, 22), (187, 4194276, 22), (188, 8388592, 23),
    (189, 4194277, 22), (190, 4194278, 22), (191, 8388593, 23), (192, 67108832, 26),
    (193, 67108833, 26), (194, 1048555, 20), (195, 524273, 19), (196, 4194279, 22),
    (197, 8388594, 23), (198, 4194280, 22), (199, 33554412, 25), (200, 67108834, 26),
    (201, 67108835, 26), (202, 67108836, 26), (203, 134217694, 27), (204, 134217695, 27),
    (205, 67108837, 26), (206, 16777201, 24), (207, 33554413, 25), (208, 524274, 19),
    (209, 2097123, 21), (210, 67108838, 26), (211, 134217696, 27), (212, 134217697, 27),
    (213, 67108839, 26), (214, 134217698, 27), (215, 16777202, 24), (216, 2097124, 21),
    (217, 2097125, 21), (218, 67108840, 26), (219, 67108841, 26), (220, 268435453, 28),
    (221, 134217699, 27), (222, 134217700, 27), (223, 134217701, 27), (224, 1048556, 20),
    (225, 16777203, 24), (226, 1048557, 20), (227, 2097126, 21), (228, 4194281, 22),
    (229, 2097127, 21), (230, 2097128, 21), (231, 8388595, 23), (232, 4194282, 22),
    (233, 4194283, 22), (234, 33554414, 25), (235, 33554415, 25), (236, 16777204, 24),
    (237, 16777205, 24), (238, 67108842, 26), (239, 8388596, 23), (240, 67108843, 26),
    (241, 134217702, 27), (242, 67108844, 26), (243, 67108845, 26), (244, 134217703, 27),
    (245, 134217704, 27), (246, 134217705, 27), (247, 134217706, 27), (248, 134217707, 27),
    (249, 268435454, 28), (250, 134217708, 27), (251, 134217709, 27), (252, 134217710, 27),
    (253, 134217711, 27), (254, 134217712, 27), (255, 67108846, 26), (256, 1073741823, 30)]

/-- `huffEnc`. -/
def huffEnc (sym : Nat) : Nat × Nat :=
  ((huffEncTable.find? fun e => e.1 == sym).map Prod.snd).getD (0, 0)

/-- The output of `HuffmanEncode` with the byte that is being filled. -/
structure EncState where
  out : List UInt8
  curByte : Nat
  bitPos : Nat

section Encoder

variable (dstMax : Nat)

/-- A bit is written. -/
def putBit (st : EncState) (codeBit : Nat) : Option EncState :=
  if st.bitPos + 1 = 8 then
    if st.out.length ≥ dstMax then none
    else some ⟨st.out ++ [UInt8.ofNat (st.curByte * 2 + codeBit)], 0, 0⟩
  else some ⟨st.out, st.curByte * 2 + codeBit, st.bitPos + 1⟩

/-- The loop over the bits of a code. -/
def putCode (code bits : Nat) (st : EncState) : Option EncState :=
  (List.range bits).foldlM (fun st b => putBit dstMax st (code / 2 ^ (bits - 1 - b) % 2)) st

/-- Ones behind the bits of the last byte. -/
def padOnes : Nat → Nat → Nat
  | 0, curByte => curByte
  | n + 1, curByte => padOnes n (curByte * 2 + 1)

/-- `HuffmanEncode`. -/
def huffmanEncode (src : List UInt8) : Option (List UInt8) :=
  match src.foldlM (fun st c => putCode dstMax (huffEnc c.toNat).1 (huffEnc c.toNat).2 st)
    ⟨[], 0, 0⟩ with
  | none => none
  | some st =>
    if st.bitPos > 0 then
      if st.out.length ≥ dstMax then none
      else some (st.out ++ [UInt8.ofNat (padOnes (8 - st.bitPos) st.curByte)])
    else some st.out

end Encoder

end Mx.Http2
