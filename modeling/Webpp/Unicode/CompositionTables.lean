import Webpp.Foundation.Tables

/-!
# The composition tables

A slot of `cp2s` is found by the remainder of the second code point, and a slot of `cp1s` by the
start and the remainder that the slot of `cp2s` has. The tables are given by the slots that are
not empty.
-/

namespace Webpp.Unicode

/-- A slot of the first code point, with the low byte of it. -/
structure CP1 where
  cp1Mask : ℕ
  replacement : ℕ
  deriving DecidableEq

/-- A slot of the second code point, with the start and the modulus of its part of `cp1s`. -/
structure CP2 where
  cp2 : ℕ
  cp1Pos : ℕ
  cp1Rem : ℕ
  deriving DecidableEq

def cp2sRem : ℕ := 313

/-- `cp2s.size()` -/
def cp2sSize : ℕ := 308

/-- `cp1s.size()` -/
def cp1sSize : ℕ := 2828

/-- The slots of `cp2s` other than `{0, 0, 1}`. -/
def cp2sEntries : List (ℕ × CP2) :=
  [(15, ⟨0x9D7, 2676, 1⟩), (19, ⟨0x110BA, 2813, 7⟩), (28, ⟨0xC56, 2685, 1⟩),
   (36, ⟨0x115AF, 2825, 2⟩), (37, ⟨0x1133E, 2820, 1⟩), (54, ⟨0x653, 2658, 1⟩),
   (55, ⟨0x654, 2659, 12⟩), (56, ⟨0x655, 2669, 1⟩), (61, ⟨0xB3E, 2677, 1⟩),
   (62, ⟨0x11357, 2821, 1⟩), (73, ⟨0x102E, 2698, 1⟩), (79, ⟨0x1B35, 2699, 16⟩),
   (85, ⟨0xB56, 2678, 1⟩), (86, ⟨0xB57, 2679, 1⟩), (87, ⟨0xDCA, 2694, 2⟩),
   (92, ⟨0xDCF, 2696, 1⟩), (94, ⟨0x114B0, 2822, 1⟩), (104, ⟨0x114BA, 2823, 1⟩),
   (107, ⟨0x114BD, 2824, 1⟩), (108, ⟨0xDDF, 2697, 1⟩), (128, ⟨0x11127, 2818, 2⟩),
   (136, ⟨0xCC2, 2686, 1⟩), (142, ⟨0x300, 0, 357⟩), (143, ⟨0x301, 337, 545⟩),
   (144, ⟨0x302, 875, 112⟩), (145, ⟨0x303, 987, 72⟩), (146, ⟨0x304, 1059, 226⟩),
   (148, ⟨0x306, 1280, 153⟩), (149, ⟨0x307, 1429, 103⟩), (150, ⟨0x308, 1532, 218⟩),
   (151, ⟨0x309, 1747, 70⟩), (152, ⟨0x30A, 1817, 15⟩), (153, ⟨0x30B, 1832, 9⟩),
   (154, ⟨0x30C, 1840, 63⟩), (155, ⟨0xCD5, 2687, 3⟩), (156, ⟨0xCD6, 2690, 1⟩),
   (157, ⟨0x30F, 1902, 30⟩), (159, ⟨0x311, 1930, 25⟩), (161, ⟨0x313, 1954, 27⟩),
   (162, ⟨0x314, 1981, 27⟩), (169, ⟨0x31B, 2008, 5⟩), (173, ⟨0x93C, 2670, 5⟩),
   (177, ⟨0x323, 2013, 76⟩), (178, ⟨0x324, 2089, 3⟩), (179, ⟨0x325, 2091, 3⟩),
   (180, ⟨0x326, 2094, 5⟩), (181, ⟨0x327, 2099, 50⟩), (182, ⟨0x328, 2149, 15⟩),
   (187, ⟨0x32D, 2163, 18⟩), (188, ⟨0x32E, 2179, 3⟩), (189, ⟨0xBBE, 2680, 2⟩),
   (190, ⟨0x330, 2182, 13⟩), (191, ⟨0x331, 2193, 37⟩), (198, ⟨0x338, 2230, 150⟩),
   (208, ⟨0x342, 2380, 106⟩), (211, ⟨0x345, 2486, 217⟩), (214, ⟨0xBD7, 2682, 3⟩),
   (234, ⟨0x3099, 2715, 95⟩), (235, ⟨0x309A, 2801, 13⟩), (260, ⟨0xD3E, 2691, 2⟩),
   (285, ⟨0xD57, 2693, 1⟩), (303, ⟨0x9BE, 2675, 1⟩), (307, ⟨0x11930, 2827, 1⟩)]

/-- `cp2s[pos]` -/
def cp2s (pos : ℕ) : CP2 := SparseTable.lookup cp2sEntries ⟨0, 0, 1⟩ pos

def cp1sEntriesPart0 : List (ℕ × CP1) :=
  [(6, ⟨0x35, 0x450⟩), (9, ⟨0x38, 0x45D⟩), (59, ⟨0xA0, 0x1EDC⟩), (60, ⟨0xA1, 0x1EDD⟩),
   (65, ⟨0x41, 0xC0⟩), (69, ⟨0x45, 0xC8⟩), (73, ⟨0x49, 0xCC⟩), (74, ⟨0xAF, 0x1EEA⟩),
   (75, ⟨0xB0, 0x1EEB⟩), (78, ⟨0x4E, 0x1F8⟩), (79, ⟨0x4F, 0xD2⟩), (82, ⟨0x0, 0x1F02⟩),
   (83, ⟨0x1, 0x1F03⟩), (85, ⟨0x55, 0xD9⟩), (87, ⟨0x57, 0x1E80⟩), (89, ⟨0x59, 0x1EF2⟩),
   (90, ⟨0x8, 0x1F0A⟩), (91, ⟨0x9, 0x1F0B⟩), (97, ⟨0x61, 0xE0⟩), (98, ⟨0x10, 0x1F12⟩),
   (99, ⟨0x11, 0x1F13⟩), (101, ⟨0x65, 0xE8⟩), (105, ⟨0x69, 0xEC⟩), (106, ⟨0x18, 0x1F1A⟩),
   (107, ⟨0x19, 0x1F1B⟩), (110, ⟨0x6E, 0x1F9⟩), (111, ⟨0x6F, 0xF2⟩), (114, ⟨0x20, 0x1F22⟩),
   (115, ⟨0x21, 0x1F23⟩), (117, ⟨0x75, 0xF9⟩), (119, ⟨0x77, 0x1E81⟩), (121, ⟨0x79, 0x1EF3⟩),
   (122, ⟨0x28, 0x1F2A⟩), (123, ⟨0x29, 0x1F2B⟩), (130, ⟨0x30, 0x1F32⟩), (131, ⟨0x31, 0x1F33⟩),
   (138, ⟨0x38, 0x1F3A⟩), (139, ⟨0x39, 0x1F3B⟩), (146, ⟨0x40, 0x1F42⟩), (147, ⟨0x41, 0x1F43⟩),
   (154, ⟨0x48, 0x1F4A⟩), (155, ⟨0x49, 0x1F4B⟩), (162, ⟨0x50, 0x1F52⟩), (163, ⟨0x51, 0x1F53⟩),
   (168, ⟨0xA8, 0x1FED⟩), (171, ⟨0x59, 0x1F5B⟩), (178, ⟨0x60, 0x1F62⟩), (179, ⟨0x61, 0x1F63⟩),
   (186, ⟨0x68, 0x1F6A⟩), (187, ⟨0x69, 0x1F6B⟩), (194, ⟨0xC2, 0x1EA6⟩), (199, ⟨0x91, 0x1FBA⟩),
   (202, ⟨0xCA, 0x1EC0⟩), (203, ⟨0x95, 0x1FC8⟩), (205, ⟨0x97, 0x1FCA⟩), (207, ⟨0x99, 0x1FDA⟩),
   (212, ⟨0xD4, 0x1ED2⟩), (213, ⟨0x9F, 0x1FF8⟩), (219, ⟨0xA5, 0x1FEA⟩), (220, ⟨0xDC, 0x1DB⟩),
   (223, ⟨0xA9, 0x1FFA⟩), (226, ⟨0xE2, 0x1EA7⟩), (231, ⟨0xB1, 0x1F70⟩), (234, ⟨0xEA, 0x1EC1⟩),
   (235, ⟨0xB5, 0x1F72⟩), (237, ⟨0xB7, 0x1F74⟩), (239, ⟨0xB9, 0x1F76⟩), (244, ⟨0xF4, 0x1ED3⟩),
   (245, ⟨0xBF, 0x1F78⟩), (251, ⟨0xC5, 0x1F7A⟩), (252, ⟨0xFC, 0x1DC⟩), (255, ⟨0xC9, 0x1F7C⟩),
   (256, ⟨0xCA, 0x1FD2⟩), (257, ⟨0xCB, 0x1FE2⟩), (258, ⟨0x2, 0x1EB0⟩), (259, ⟨0x3, 0x1EB1⟩),
   (273, ⟨0xBF, 0x1FCD⟩), (274, ⟨0x12, 0x1E14⟩), (275, ⟨0x13, 0x1E15⟩), (331, ⟨0x15, 0x400⟩),
   (332, ⟨0x4C, 0x1E50⟩), (333, ⟨0x4D, 0x1E51⟩), (334, ⟨0x18, 0x40D⟩), (336, ⟨0xFE, 0x1FDD⟩),
   (352, ⟨0xFE, 0x1FDE⟩), (402, ⟨0x41, 0xC1⟩), (404, ⟨0x43, 0x106⟩), (406, ⟨0x45, 0xC9⟩),
   (408, ⟨0x47, 0x1F4⟩), (410, ⟨0x49, 0xCD⟩), (412, ⟨0x4B, 0x1E30⟩), (413, ⟨0x4C, 0x139⟩),
   (414, ⟨0x4D, 0x1E3E⟩), (415, ⟨0x4E, 0x143⟩), (416, ⟨0x4F, 0xD3⟩)]

def cp1sEntriesPart1 : List (ℕ × CP1) :=
  [(417, ⟨0x50, 0x1E54⟩), (419, ⟨0x52, 0x154⟩), (420, ⟨0x53, 0x15A⟩), (422, ⟨0x55, 0xDA⟩),
   (424, ⟨0x57, 0x1E82⟩), (426, ⟨0x59, 0xDD⟩), (427, ⟨0x5A, 0x179⟩), (434, ⟨0x61, 0xE1⟩),
   (436, ⟨0x63, 0x107⟩), (438, ⟨0x65, 0xE9⟩), (440, ⟨0x67, 0x1F5⟩), (442, ⟨0x69, 0xED⟩),
   (444, ⟨0x6B, 0x1E31⟩), (445, ⟨0x6C, 0x13A⟩), (446, ⟨0x6D, 0x1E3F⟩), (447, ⟨0x6E, 0x144⟩),
   (448, ⟨0x6F, 0xF3⟩), (449, ⟨0x70, 0x1E55⟩), (451, ⟨0x72, 0x155⟩), (452, ⟨0x73, 0x15B⟩),
   (454, ⟨0x75, 0xFA⟩), (456, ⟨0x77, 0x1E83⟩), (458, ⟨0x79, 0xFD⟩), (459, ⟨0x7A, 0x17A⟩),
   (505, ⟨0xA8, 0x385⟩), (531, ⟨0xC2, 0x1EA4⟩), (534, ⟨0xC5, 0x1FA⟩), (535, ⟨0xC6, 0x1FC⟩),
   (536, ⟨0xC7, 0x1E08⟩), (539, ⟨0xCA, 0x1EBE⟩), (544, ⟨0xCF, 0x1E2E⟩), (549, ⟨0xD4, 0x1ED0⟩),
   (550, ⟨0xD5, 0x1E4C⟩), (553, ⟨0xD8, 0x1FE⟩), (557, ⟨0xDC, 0x1D7⟩), (563, ⟨0xE2, 0x1EA5⟩),
   (566, ⟨0xE5, 0x1FB⟩), (567, ⟨0xE6, 0x1FD⟩), (568, ⟨0xE7, 0x1E09⟩), (571, ⟨0xEA, 0x1EBF⟩),
   (576, ⟨0xEF, 0x1E2F⟩), (581, ⟨0xF4, 0x1ED1⟩), (582, ⟨0xF5, 0x1E4D⟩), (585, ⟨0xF8, 0x1FF⟩),
   (589, ⟨0xFC, 0x1D8⟩), (595, ⟨0x2, 0x1EAE⟩), (596, ⟨0x3, 0x1EAF⟩), (611, ⟨0x12, 0x1E16⟩),
   (612, ⟨0x13, 0x1E17⟩), (643, ⟨0x0, 0x1F04⟩), (644, ⟨0x1, 0x1F05⟩), (651, ⟨0x8, 0x1F0C⟩),
   (652, ⟨0x9, 0x1F0D⟩), (659, ⟨0x10, 0x1F14⟩), (660, ⟨0x11, 0x1F15⟩), (667, ⟨0x18, 0x1F1C⟩),
   (668, ⟨0x19, 0x1F1D⟩), (669, ⟨0x4C, 0x1E52⟩), (670, ⟨0x4D, 0x1E53⟩), (675, ⟨0x20, 0x1F24⟩),
   (676, ⟨0x21, 0x1F25⟩), (683, ⟨0x28, 0x1F2C⟩), (684, ⟨0x29, 0x1F2D⟩), (691, ⟨0x30, 0x1F34⟩),
   (692, ⟨0x31, 0x1F35⟩), (697, ⟨0x68, 0x1E78⟩), (698, ⟨0x69, 0x1E79⟩), (699, ⟨0x38, 0x1F3C⟩),
   (700, ⟨0x39, 0x1F3D⟩), (705, ⟨0x91, 0x386⟩), (707, ⟨0x40, 0x1F44⟩), (708, ⟨0x41, 0x1F45⟩),
   (709, ⟨0x95, 0x388⟩), (711, ⟨0x97, 0x389⟩), (713, ⟨0x99, 0x38A⟩), (715, ⟨0x48, 0x1F4C⟩),
   (716, ⟨0x49, 0x1F4D⟩), (719, ⟨0x9F, 0x38C⟩), (723, ⟨0x50, 0x1F54⟩), (724, ⟨0x51, 0x1F55⟩),
   (725, ⟨0xA5, 0x38E⟩), (729, ⟨0xA9, 0x38F⟩), (732, ⟨0x59, 0x1F5D⟩), (737, ⟨0xB1, 0x3AC⟩),
   (739, ⟨0x60, 0x1F64⟩), (740, ⟨0x61, 0x1F65⟩), (741, ⟨0xB5, 0x3AD⟩), (743, ⟨0xB7, 0x3AE⟩),
   (745, ⟨0xB9, 0x3AF⟩), (747, ⟨0x68, 0x1F6C⟩), (748, ⟨0x69, 0x1F6D⟩), (751, ⟨0xBF, 0x3CC⟩),
   (753, ⟨0xA0, 0x1EDA⟩), (754, ⟨0xA1, 0x1EDB⟩), (757, ⟨0xC5, 0x3CD⟩)]

def cp1sEntriesPart2 : List (ℕ × CP1) :=
  [(761, ⟨0xC9, 0x3CE⟩), (762, ⟨0xCA, 0x390⟩), (763, ⟨0xCB, 0x3B0⟩), (768, ⟨0xAF, 0x1EE8⟩),
   (769, ⟨0xB0, 0x1EE9⟩), (770, ⟨0xD2, 0x3D3⟩), (834, ⟨0xBF, 0x1FCE⟩), (835, ⟨0x13, 0x403⟩),
   (842, ⟨0x1A, 0x40C⟩), (867, ⟨0x33, 0x453⟩), (874, ⟨0x3A, 0x45C⟩), (875, ⟨0xA0, 0x1EAC⟩),
   (876, ⟨0xA1, 0x1EAD⟩), (878, ⟨0x73, 0x15D⟩), (880, ⟨0x75, 0xFB⟩), (882, ⟨0x77, 0x175⟩),
   (884, ⟨0x79, 0x177⟩), (885, ⟨0x7A, 0x1E91⟩), (899, ⟨0xB8, 0x1EC6⟩), (900, ⟨0xB9, 0x1EC7⟩),
   (919, ⟨0xCC, 0x1ED8⟩), (920, ⟨0xCD, 0x1ED9⟩), (940, ⟨0x41, 0xC2⟩), (942, ⟨0x43, 0x108⟩),
   (944, ⟨0x45, 0xCA⟩), (946, ⟨0x47, 0x11C⟩), (947, ⟨0x48, 0x124⟩), (948, ⟨0x49, 0xCE⟩),
   (949, ⟨0x4A, 0x134⟩), (954, ⟨0x4F, 0xD4⟩), (958, ⟨0x53, 0x15C⟩), (960, ⟨0x55, 0xDB⟩),
   (962, ⟨0x57, 0x174⟩), (964, ⟨0x59, 0x176⟩), (965, ⟨0x5A, 0x1E90⟩), (972, ⟨0x61, 0xE2⟩),
   (974, ⟨0x63, 0x109⟩), (976, ⟨0x65, 0xEA⟩), (978, ⟨0x67, 0x11D⟩), (979, ⟨0x68, 0x125⟩),
   (980, ⟨0x69, 0xEE⟩), (981, ⟨0x6A, 0x135⟩), (986, ⟨0x6F, 0xF4⟩), (987, ⟨0xB0, 0x1EEF⟩),
   (988, ⟨0x49, 0x128⟩), (993, ⟨0x4E, 0xD1⟩), (994, ⟨0x4F, 0xD5⟩), (997, ⟨0xE2, 0x1EAB⟩),
   (1000, ⟨0x55, 0x168⟩), (1001, ⟨0x56, 0x1E7C⟩), (1004, ⟨0x59, 0x1EF8⟩), (1005, ⟨0xEA, 0x1EC5⟩),
   (1012, ⟨0x61, 0xE3⟩), (1015, ⟨0xF4, 0x1ED7⟩), (1016, ⟨0x65, 0x1EBD⟩), (1020, ⟨0x69, 0x129⟩),
   (1025, ⟨0x6E, 0xF1⟩), (1026, ⟨0x6F, 0xF5⟩), (1029, ⟨0x2, 0x1EB4⟩), (1030, ⟨0x3, 0x1EB5⟩),
   (1032, ⟨0x75, 0x169⟩), (1033, ⟨0x76, 0x1E7D⟩), (1036, ⟨0x79, 0x1EF9⟩), (1037, ⟨0xC2, 0x1EAA⟩),
   (1043, ⟨0xA0, 0x1EE0⟩), (1044, ⟨0xA1, 0x1EE1⟩), (1045, ⟨0xCA, 0x1EC4⟩), (1052, ⟨0x41, 0xC3⟩),
   (1055, ⟨0xD4, 0x1ED6⟩), (1056, ⟨0x45, 0x1EBC⟩), (1058, ⟨0xAF, 0x1EEE⟩), (1061, ⟨0xE4, 0x1DF⟩),
   (1063, ⟨0xE6, 0x1E3⟩), (1068, ⟨0x91, 0x1FB9⟩), (1076, ⟨0x99, 0x1FD9⟩), (1078, ⟨0xF5, 0x22D⟩),
   (1079, ⟨0xF6, 0x22B⟩), (1085, ⟨0xFC, 0x1D6⟩), (1088, ⟨0xA5, 0x1FE9⟩), (1097, ⟨0xEA, 0x1EC⟩),
   (1098, ⟨0xEB, 0x1ED⟩), (1100, ⟨0xB1, 0x1FB1⟩), (1108, ⟨0xB9, 0x1FD1⟩), (1109, ⟨0x36, 0x1E38⟩),
   (1110, ⟨0x37, 0x1E39⟩), (1120, ⟨0xC5, 0x1FE1⟩), (1124, ⟨0x41, 0x100⟩), (1128, ⟨0x45, 0x112⟩),
   (1130, ⟨0x47, 0x1E20⟩), (1132, ⟨0x49, 0x12A⟩), (1138, ⟨0x4F, 0x14C⟩), (1144, ⟨0x55, 0x16A⟩),
   (1145, ⟨0x5A, 0x1E5C⟩), (1146, ⟨0x5B, 0x1E5D⟩), (1148, ⟨0x59, 0x232⟩)]

def cp1sEntriesPart3 : List (ℕ × CP1) :=
  [(1156, ⟨0x61, 0x101⟩), (1157, ⟨0x26, 0x1E0⟩), (1158, ⟨0x27, 0x1E1⟩), (1160, ⟨0x65, 0x113⟩),
   (1162, ⟨0x67, 0x1E21⟩), (1164, ⟨0x69, 0x12B⟩), (1165, ⟨0x2E, 0x230⟩), (1166, ⟨0x2F, 0x231⟩),
   (1170, ⟨0x6F, 0x14D⟩), (1176, ⟨0x75, 0x16B⟩), (1180, ⟨0x79, 0x233⟩), (1203, ⟨0x18, 0x4E2⟩),
   (1214, ⟨0x23, 0x4EE⟩), (1235, ⟨0x38, 0x4E3⟩), (1246, ⟨0x43, 0x4EF⟩), (1255, ⟨0xC4, 0x1DE⟩),
   (1257, ⟨0xC6, 0x1E2⟩), (1272, ⟨0xD5, 0x22C⟩), (1273, ⟨0xD6, 0x22A⟩), (1279, ⟨0xDC, 0x1D5⟩),
   (1281, ⟨0x30, 0x4D1⟩), (1283, ⟨0x99, 0x1FD8⟩), (1286, ⟨0x35, 0x4D7⟩), (1287, ⟨0x36, 0x4C2⟩),
   (1289, ⟨0x38, 0x439⟩), (1295, ⟨0xA5, 0x1FE8⟩), (1300, ⟨0x43, 0x45E⟩), (1307, ⟨0xB1, 0x1FB0⟩),
   (1315, ⟨0xB9, 0x1FD0⟩), (1317, ⟨0xA0, 0x1EB6⟩), (1318, ⟨0xA1, 0x1EB7⟩),
   (1327, ⟨0xC5, 0x1FE0⟩), (1345, ⟨0x41, 0x102⟩), (1349, ⟨0x45, 0x114⟩), (1351, ⟨0x47, 0x11E⟩),
   (1353, ⟨0x49, 0x12C⟩), (1359, ⟨0x4F, 0x14E⟩), (1365, ⟨0x55, 0x16C⟩), (1373, ⟨0x28, 0x1E1C⟩),
   (1374, ⟨0x29, 0x1E1D⟩), (1377, ⟨0x61, 0x103⟩), (1381, ⟨0x65, 0x115⟩), (1383, ⟨0x67, 0x11F⟩),
   (1385, ⟨0x69, 0x12D⟩), (1391, ⟨0x6F, 0x14F⟩), (1397, ⟨0x75, 0x16D⟩), (1402, ⟨0x10, 0x4D0⟩),
   (1407, ⟨0x15, 0x4D6⟩), (1408, ⟨0x16, 0x4C1⟩), (1410, ⟨0x18, 0x419⟩), (1421, ⟨0x23, 0x40E⟩),
   (1428, ⟨0x91, 0x1FB8⟩), (1429, ⟨0x67, 0x121⟩), (1430, ⟨0x68, 0x1E23⟩), (1435, ⟨0x6D, 0x1E41⟩),
   (1436, ⟨0x6E, 0x1E45⟩), (1437, ⟨0x6F, 0x22F⟩), (1438, ⟨0x70, 0x1E57⟩), (1440, ⟨0x72, 0x1E59⟩),
   (1441, ⟨0x73, 0x1E61⟩), (1442, ⟨0x74, 0x1E6B⟩), (1445, ⟨0x77, 0x1E87⟩),
   (1446, ⟨0x78, 0x1E8B⟩), (1447, ⟨0x79, 0x1E8F⟩), (1448, ⟨0x7A, 0x17C⟩), (1466, ⟨0x5A, 0x1E64⟩),
   (1467, ⟨0x5B, 0x1E65⟩), (1472, ⟨0x60, 0x1E66⟩), (1473, ⟨0x61, 0x1E67⟩),
   (1482, ⟨0x62, 0x1E68⟩), (1483, ⟨0x63, 0x1E69⟩), (1494, ⟨0x41, 0x226⟩), (1495, ⟨0x42, 0x1E02⟩),
   (1496, ⟨0x43, 0x10A⟩), (1497, ⟨0x44, 0x1E0A⟩), (1498, ⟨0x45, 0x116⟩), (1499, ⟨0x46, 0x1E1E⟩),
   (1500, ⟨0x47, 0x120⟩), (1501, ⟨0x48, 0x1E22⟩), (1502, ⟨0x49, 0x130⟩), (1503, ⟨0x7F, 0x1E9B⟩),
   (1506, ⟨0x4D, 0x1E40⟩), (1507, ⟨0x4E, 0x1E44⟩), (1508, ⟨0x4F, 0x22E⟩), (1509, ⟨0x50, 0x1E56⟩),
   (1511, ⟨0x52, 0x1E58⟩), (1512, ⟨0x53, 0x1E60⟩), (1513, ⟨0x54, 0x1E6A⟩),
   (1516, ⟨0x57, 0x1E86⟩), (1517, ⟨0x58, 0x1E8A⟩), (1518, ⟨0x59, 0x1E8E⟩), (1519, ⟨0x5A, 0x17B⟩),
   (1526, ⟨0x61, 0x227⟩), (1527, ⟨0x62, 0x1E03⟩), (1528, ⟨0x63, 0x10B⟩)]

def cp1sEntriesPart4 : List (ℕ × CP1) :=
  [(1529, ⟨0x64, 0x1E0B⟩), (1530, ⟨0x65, 0x117⟩), (1531, ⟨0x66, 0x1E1F⟩), (1533, ⟨0x43, 0x4F1⟩),
   (1537, ⟨0x47, 0x4F5⟩), (1541, ⟨0x4B, 0x4F9⟩), (1543, ⟨0x4D, 0x4ED⟩), (1552, ⟨0x56, 0x457⟩),
   (1559, ⟨0xF5, 0x1E4F⟩), (1581, ⟨0x99, 0x3AA⟩), (1593, ⟨0xA5, 0x3AB⟩), (1597, ⟨0x41, 0xC4⟩),
   (1601, ⟨0x45, 0xCB⟩), (1604, ⟨0x48, 0x1E26⟩), (1605, ⟨0x49, 0xCF⟩), (1611, ⟨0x4F, 0xD6⟩),
   (1613, ⟨0xB9, 0x3CA⟩), (1617, ⟨0x55, 0xDC⟩), (1619, ⟨0x57, 0x1E84⟩), (1620, ⟨0x58, 0x1E8C⟩),
   (1621, ⟨0x59, 0x178⟩), (1625, ⟨0xC5, 0x3CB⟩), (1629, ⟨0x61, 0xE4⟩), (1633, ⟨0x65, 0xEB⟩),
   (1636, ⟨0x68, 0x1E27⟩), (1637, ⟨0x69, 0xEF⟩), (1638, ⟨0xD2, 0x3D4⟩), (1643, ⟨0x6F, 0xF6⟩),
   (1648, ⟨0x74, 0x1E97⟩), (1649, ⟨0x75, 0xFC⟩), (1651, ⟨0x77, 0x1E85⟩), (1652, ⟨0x78, 0x1E8D⟩),
   (1653, ⟨0x79, 0xFF⟩), (1676, ⟨0x6A, 0x1E7A⟩), (1677, ⟨0x6B, 0x1E7B⟩), (1682, ⟨0xD8, 0x4DA⟩),
   (1683, ⟨0xD9, 0x4DB⟩), (1690, ⟨0x6, 0x407⟩), (1698, ⟨0xE8, 0x4EA⟩), (1699, ⟨0xE9, 0x4EB⟩),
   (1700, ⟨0x10, 0x4D2⟩), (1705, ⟨0x15, 0x401⟩), (1706, ⟨0x16, 0x4DC⟩), (1707, ⟨0x17, 0x4DE⟩),
   (1708, ⟨0x18, 0x4E4⟩), (1714, ⟨0x1E, 0x4E6⟩), (1719, ⟨0x23, 0x4F0⟩), (1723, ⟨0x27, 0x4F4⟩),
   (1727, ⟨0x2B, 0x4F8⟩), (1729, ⟨0x2D, 0x4EC⟩), (1732, ⟨0x30, 0x4D3⟩), (1737, ⟨0x35, 0x451⟩),
   (1738, ⟨0x36, 0x4DD⟩), (1739, ⟨0x37, 0x4DF⟩), (1740, ⟨0x38, 0x4E5⟩), (1745, ⟨0xD5, 0x1E4E⟩),
   (1746, ⟨0x3E, 0x4E7⟩), (1749, ⟨0xD4, 0x1ED4⟩), (1750, ⟨0x49, 0x1EC8⟩), (1756, ⟨0x4F, 0x1ECE⟩),
   (1758, ⟨0xAF, 0x1EEC⟩), (1759, ⟨0xB0, 0x1EED⟩), (1762, ⟨0x55, 0x1EE6⟩),
   (1763, ⟨0xE2, 0x1EA9⟩), (1766, ⟨0x59, 0x1EF6⟩), (1771, ⟨0xEA, 0x1EC3⟩),
   (1774, ⟨0x61, 0x1EA3⟩), (1778, ⟨0x65, 0x1EBB⟩), (1781, ⟨0xF4, 0x1ED5⟩),
   (1782, ⟨0x69, 0x1EC9⟩), (1788, ⟨0x6F, 0x1ECF⟩), (1794, ⟨0x75, 0x1EE7⟩), (1795, ⟨0x2, 0x1EB2⟩),
   (1796, ⟨0x3, 0x1EB3⟩), (1798, ⟨0x79, 0x1EF7⟩), (1801, ⟨0xC2, 0x1EA8⟩), (1809, ⟨0xCA, 0x1EC2⟩),
   (1812, ⟨0x41, 0x1EA2⟩), (1813, ⟨0xA0, 0x1EDE⟩), (1814, ⟨0xA1, 0x1EDF⟩),
   (1816, ⟨0x45, 0x1EBA⟩), (1818, ⟨0x79, 0x1E99⟩), (1822, ⟨0x41, 0xC5⟩), (1824, ⟨0x61, 0xE5⟩),
   (1827, ⟨0x55, 0x16E⟩), (1829, ⟨0x75, 0x16F⟩), (1831, ⟨0x77, 0x1E98⟩), (1832, ⟨0x75, 0x171⟩),
   (1834, ⟨0x43, 0x4F3⟩), (1835, ⟨0x6F, 0x151⟩), (1836, ⟨0x55, 0x170⟩), (1838, ⟨0x23, 0x4F2⟩),
   (1839, ⟨0x4F, 0x150⟩), (1840, ⟨0xFC, 0x1DA⟩), (1842, ⟨0x41, 0x1CD⟩)]

def cp1sEntriesPart5 : List (ℕ × CP1) :=
  [(1844, ⟨0x43, 0x10C⟩), (1845, ⟨0x44, 0x10E⟩), (1846, ⟨0x45, 0x11A⟩), (1848, ⟨0x47, 0x1E6⟩),
   (1849, ⟨0x48, 0x21E⟩), (1850, ⟨0x49, 0x1CF⟩), (1852, ⟨0x4B, 0x1E8⟩), (1853, ⟨0x4C, 0x13D⟩),
   (1855, ⟨0x4E, 0x147⟩), (1856, ⟨0x4F, 0x1D1⟩), (1859, ⟨0x52, 0x158⟩), (1860, ⟨0x53, 0x160⟩),
   (1861, ⟨0x54, 0x164⟩), (1862, ⟨0x55, 0x1D3⟩), (1867, ⟨0x5A, 0x17D⟩), (1868, ⟨0x92, 0x1EF⟩),
   (1871, ⟨0xDC, 0x1D9⟩), (1874, ⟨0x61, 0x1CE⟩), (1876, ⟨0x63, 0x10D⟩), (1877, ⟨0x64, 0x10F⟩),
   (1878, ⟨0x65, 0x11B⟩), (1880, ⟨0x67, 0x1E7⟩), (1881, ⟨0x68, 0x21F⟩), (1882, ⟨0x69, 0x1D0⟩),
   (1883, ⟨0x6A, 0x1F0⟩), (1884, ⟨0x6B, 0x1E9⟩), (1885, ⟨0x6C, 0x13E⟩), (1887, ⟨0x6E, 0x148⟩),
   (1888, ⟨0x6F, 0x1D2⟩), (1891, ⟨0x72, 0x159⟩), (1892, ⟨0x73, 0x161⟩), (1893, ⟨0x74, 0x165⟩),
   (1894, ⟨0x75, 0x1D4⟩), (1899, ⟨0x7A, 0x17E⟩), (1901, ⟨0xB7, 0x1EE⟩), (1902, ⟨0x74, 0x476⟩),
   (1903, ⟨0x75, 0x477⟩), (1907, ⟨0x41, 0x200⟩), (1909, ⟨0x61, 0x201⟩), (1911, ⟨0x45, 0x204⟩),
   (1913, ⟨0x65, 0x205⟩), (1915, ⟨0x49, 0x208⟩), (1917, ⟨0x69, 0x209⟩), (1921, ⟨0x4F, 0x20C⟩),
   (1923, ⟨0x6F, 0x20D⟩), (1924, ⟨0x52, 0x210⟩), (1926, ⟨0x72, 0x211⟩), (1927, ⟨0x55, 0x214⟩),
   (1929, ⟨0x75, 0x215⟩), (1931, ⟨0x65, 0x207⟩), (1934, ⟨0x4F, 0x20E⟩), (1935, ⟨0x69, 0x20B⟩),
   (1937, ⟨0x52, 0x212⟩), (1940, ⟨0x55, 0x216⟩), (1941, ⟨0x6F, 0x20F⟩), (1944, ⟨0x72, 0x213⟩),
   (1945, ⟨0x41, 0x202⟩), (1947, ⟨0x75, 0x217⟩), (1949, ⟨0x45, 0x206⟩), (1952, ⟨0x61, 0x203⟩),
   (1953, ⟨0x49, 0x20A⟩), (1954, ⟨0xB1, 0x1F00⟩), (1955, ⟨0x97, 0x1F28⟩), (1957, ⟨0x99, 0x1F38⟩),
   (1958, ⟨0xB5, 0x1F10⟩), (1960, ⟨0xB7, 0x1F20⟩), (1962, ⟨0xB9, 0x1F30⟩),
   (1963, ⟨0x9F, 0x1F48⟩), (1968, ⟨0xBF, 0x1F40⟩), (1970, ⟨0xC1, 0x1FE4⟩),
   (1973, ⟨0xA9, 0x1F68⟩), (1974, ⟨0xC5, 0x1F50⟩), (1976, ⟨0x91, 0x1F08⟩),
   (1978, ⟨0xC9, 0x1F60⟩), (1980, ⟨0x95, 0x1F18⟩), (1981, ⟨0xB1, 0x1F01⟩),
   (1982, ⟨0x97, 0x1F29⟩), (1984, ⟨0x99, 0x1F39⟩), (1985, ⟨0xB5, 0x1F11⟩),
   (1987, ⟨0xB7, 0x1F21⟩), (1989, ⟨0xB9, 0x1F31⟩), (1990, ⟨0x9F, 0x1F49⟩),
   (1992, ⟨0xA1, 0x1FEC⟩), (1995, ⟨0xBF, 0x1F41⟩), (1996, ⟨0xA5, 0x1F59⟩),
   (1997, ⟨0xC1, 0x1FE5⟩), (2000, ⟨0xA9, 0x1F69⟩), (2001, ⟨0xC5, 0x1F51⟩),
   (2003, ⟨0x91, 0x1F09⟩), (2005, ⟨0xC9, 0x1F61⟩), (2007, ⟨0x95, 0x1F19⟩), (2008, ⟨0x55, 0x1AF⟩),
   (2009, ⟨0x6F, 0x1A1⟩), (2010, ⟨0x75, 0x1B0⟩), (2012, ⟨0x4F, 0x1A0⟩)]

def cp1sEntriesPart6 : List (ℕ × CP1) :=
  [(2013, ⟨0x4C, 0x1E36⟩), (2014, ⟨0x4D, 0x1E42⟩), (2015, ⟨0x4E, 0x1E46⟩),
   (2016, ⟨0x4F, 0x1ECC⟩), (2019, ⟨0x52, 0x1E5A⟩), (2020, ⟨0x53, 0x1E62⟩),
   (2021, ⟨0x54, 0x1E6C⟩), (2022, ⟨0x55, 0x1EE4⟩), (2023, ⟨0x56, 0x1E7E⟩),
   (2024, ⟨0x57, 0x1E88⟩), (2026, ⟨0x59, 0x1EF4⟩), (2027, ⟨0x5A, 0x1E92⟩),
   (2034, ⟨0x61, 0x1EA1⟩), (2035, ⟨0x62, 0x1E05⟩), (2037, ⟨0x64, 0x1E0D⟩),
   (2038, ⟨0x65, 0x1EB9⟩), (2041, ⟨0x68, 0x1E25⟩), (2042, ⟨0x69, 0x1ECB⟩),
   (2044, ⟨0x6B, 0x1E33⟩), (2045, ⟨0x6C, 0x1E37⟩), (2046, ⟨0x6D, 0x1E43⟩),
   (2047, ⟨0x6E, 0x1E47⟩), (2048, ⟨0x6F, 0x1ECD⟩), (2049, ⟨0xA0, 0x1EE2⟩),
   (2050, ⟨0xA1, 0x1EE3⟩), (2051, ⟨0x72, 0x1E5B⟩), (2052, ⟨0x73, 0x1E63⟩),
   (2053, ⟨0x74, 0x1E6D⟩), (2054, ⟨0x75, 0x1EE5⟩), (2055, ⟨0x76, 0x1E7F⟩),
   (2056, ⟨0x77, 0x1E89⟩), (2058, ⟨0x79, 0x1EF5⟩), (2059, ⟨0x7A, 0x1E93⟩),
   (2064, ⟨0xAF, 0x1EF0⟩), (2065, ⟨0xB0, 0x1EF1⟩), (2078, ⟨0x41, 0x1EA0⟩),
   (2079, ⟨0x42, 0x1E04⟩), (2081, ⟨0x44, 0x1E0C⟩), (2082, ⟨0x45, 0x1EB8⟩),
   (2085, ⟨0x48, 0x1E24⟩), (2086, ⟨0x49, 0x1ECA⟩), (2088, ⟨0x4B, 0x1E32⟩),
   (2089, ⟨0x75, 0x1E73⟩), (2090, ⟨0x55, 0x1E72⟩), (2092, ⟨0x61, 0x1E01⟩),
   (2093, ⟨0x41, 0x1E00⟩), (2094, ⟨0x73, 0x219⟩), (2095, ⟨0x74, 0x21B⟩), (2097, ⟨0x53, 0x218⟩),
   (2098, ⟨0x54, 0x21A⟩), (2099, ⟨0x64, 0x1E11⟩), (2100, ⟨0x65, 0x229⟩), (2102, ⟨0x67, 0x123⟩),
   (2103, ⟨0x68, 0x1E29⟩), (2106, ⟨0x6B, 0x137⟩), (2107, ⟨0x6C, 0x13C⟩), (2109, ⟨0x6E, 0x146⟩),
   (2113, ⟨0x72, 0x157⟩), (2114, ⟨0x73, 0x15F⟩), (2115, ⟨0x74, 0x163⟩), (2116, ⟨0x43, 0xC7⟩),
   (2117, ⟨0x44, 0x1E10⟩), (2118, ⟨0x45, 0x228⟩), (2120, ⟨0x47, 0x122⟩), (2121, ⟨0x48, 0x1E28⟩),
   (2124, ⟨0x4B, 0x136⟩), (2125, ⟨0x4C, 0x13B⟩), (2127, ⟨0x4E, 0x145⟩), (2131, ⟨0x52, 0x156⟩),
   (2132, ⟨0x53, 0x15E⟩), (2133, ⟨0x54, 0x162⟩), (2148, ⟨0x63, 0xE7⟩), (2149, ⟨0x69, 0x12F⟩),
   (2153, ⟨0x4F, 0x1EA⟩), (2154, ⟨0x41, 0x104⟩), (2155, ⟨0x6F, 0x1EB⟩), (2156, ⟨0x61, 0x105⟩),
   (2158, ⟨0x45, 0x118⟩), (2159, ⟨0x55, 0x172⟩), (2160, ⟨0x65, 0x119⟩), (2161, ⟨0x75, 0x173⟩),
   (2162, ⟨0x49, 0x12E⟩), (2163, ⟨0x6C, 0x1E3D⟩), (2165, ⟨0x6E, 0x1E4B⟩), (2167, ⟨0x4C, 0x1E3C⟩),
   (2169, ⟨0x4E, 0x1E4A⟩), (2171, ⟨0x74, 0x1E71⟩), (2172, ⟨0x75, 0x1E77⟩),
   (2173, ⟨0x64, 0x1E13⟩), (2174, ⟨0x65, 0x1E19⟩), (2175, ⟨0x54, 0x1E70⟩),
   (2176, ⟨0x55, 0x1E76⟩), (2177, ⟨0x44, 0x1E12⟩), (2178, ⟨0x45, 0x1E18⟩),
   (2179, ⟨0x48, 0x1E2A⟩)]

def cp1sEntriesPart7 : List (ℕ × CP1) :=
  [(2181, ⟨0x68, 0x1E2B⟩), (2182, ⟨0x75, 0x1E75⟩), (2183, ⟨0x69, 0x1E2D⟩),
   (2186, ⟨0x45, 0x1E1A⟩), (2189, ⟨0x55, 0x1E74⟩), (2190, ⟨0x49, 0x1E2C⟩),
   (2192, ⟨0x65, 0x1E1B⟩), (2194, ⟨0x4B, 0x1E34⟩), (2195, ⟨0x4C, 0x1E3A⟩),
   (2196, ⟨0x72, 0x1E5F⟩), (2197, ⟨0x4E, 0x1E48⟩), (2198, ⟨0x74, 0x1E6F⟩),
   (2201, ⟨0x52, 0x1E5E⟩), (2203, ⟨0x54, 0x1E6E⟩), (2204, ⟨0x7A, 0x1E95⟩),
   (2209, ⟨0x5A, 0x1E94⟩), (2217, ⟨0x62, 0x1E07⟩), (2219, ⟨0x64, 0x1E0F⟩),
   (2222, ⟨0x42, 0x1E06⟩), (2223, ⟨0x68, 0x1E96⟩), (2224, ⟨0x44, 0x1E0E⟩),
   (2226, ⟨0x6B, 0x1E35⟩), (2227, ⟨0x6C, 0x1E3B⟩), (2229, ⟨0x6E, 0x1E49⟩),
   (2230, ⟨0x92, 0x22E3⟩), (2237, ⟨0x3, 0x2204⟩), (2242, ⟨0x8, 0x2209⟩), (2245, ⟨0xB, 0x220C⟩),
   (2246, ⟨0xA2, 0x22AC⟩), (2252, ⟨0xA8, 0x22AD⟩), (2253, ⟨0xA9, 0x22AE⟩),
   (2255, ⟨0xAB, 0x22AF⟩), (2262, ⟨0xB2, 0x22EA⟩), (2263, ⟨0xB3, 0x22EB⟩),
   (2264, ⟨0xB4, 0x22EC⟩), (2265, ⟨0xB5, 0x22ED⟩), (2269, ⟨0x23, 0x2224⟩),
   (2271, ⟨0x25, 0x2226⟩), (2272, ⟨0x90, 0x219A⟩), (2274, ⟨0x92, 0x219B⟩),
   (2276, ⟨0x94, 0x21AE⟩), (2290, ⟨0x3C, 0x226E⟩), (2291, ⟨0x3D, 0x2260⟩),
   (2292, ⟨0x3E, 0x226F⟩), (2294, ⟨0x3C, 0x2241⟩), (2301, ⟨0x43, 0x2244⟩),
   (2303, ⟨0x45, 0x2247⟩), (2306, ⟨0x48, 0x2249⟩), (2311, ⟨0x4D, 0x226D⟩),
   (2331, ⟨0x61, 0x2262⟩), (2334, ⟨0x64, 0x2270⟩), (2335, ⟨0x65, 0x2271⟩),
   (2336, ⟨0xD0, 0x21CD⟩), (2338, ⟨0xD2, 0x21CF⟩), (2340, ⟨0xD4, 0x21CE⟩),
   (2348, ⟨0x72, 0x2274⟩), (2349, ⟨0x73, 0x2275⟩), (2352, ⟨0x76, 0x2278⟩),
   (2353, ⟨0x77, 0x2279⟩), (2356, ⟨0x7A, 0x2280⟩), (2357, ⟨0x7B, 0x2281⟩),
   (2358, ⟨0x7C, 0x22E0⟩), (2359, ⟨0x7D, 0x22E1⟩), (2364, ⟨0x82, 0x2284⟩),
   (2365, ⟨0x83, 0x2285⟩), (2368, ⟨0x86, 0x2288⟩), (2369, ⟨0x87, 0x2289⟩),
   (2379, ⟨0x91, 0x22E2⟩), (2391, ⟨0xC5, 0x1FE6⟩), (2395, ⟨0xC9, 0x1FF6⟩),
   (2396, ⟨0xCA, 0x1FD7⟩), (2397, ⟨0xCB, 0x1FE7⟩), (2398, ⟨0x20, 0x1F26⟩),
   (2399, ⟨0x21, 0x1F27⟩), (2406, ⟨0x28, 0x1F2E⟩), (2407, ⟨0x29, 0x1F2F⟩),
   (2408, ⟨0xFE, 0x1FDF⟩), (2414, ⟨0x30, 0x1F36⟩), (2415, ⟨0x31, 0x1F37⟩),
   (2422, ⟨0x38, 0x1F3E⟩), (2423, ⟨0x39, 0x1F3F⟩), (2442, ⟨0xA8, 0x1FC1⟩),
   (2446, ⟨0x50, 0x1F56⟩), (2447, ⟨0x51, 0x1F57⟩), (2451, ⟨0xBF, 0x1FCF⟩),
   (2455, ⟨0x59, 0x1F5F⟩), (2462, ⟨0x60, 0x1F66⟩), (2463, ⟨0x61, 0x1F67⟩),
   (2470, ⟨0x68, 0x1F6E⟩), (2471, ⟨0x69, 0x1F6F⟩), (2472, ⟨0x0, 0x1F06⟩), (2473, ⟨0x1, 0x1F07⟩),
   (2477, ⟨0xB1, 0x1FB6⟩), (2480, ⟨0x8, 0x1F0E⟩), (2481, ⟨0x9, 0x1F0F⟩)]

def cp1sEntriesPart8 : List (ℕ × CP1) :=
  [(2483, ⟨0xB7, 0x1FC6⟩), (2485, ⟨0xB9, 0x1FD6⟩), (2489, ⟨0x60, 0x1FA0⟩),
   (2490, ⟨0x61, 0x1FA1⟩), (2491, ⟨0x62, 0x1FA2⟩), (2492, ⟨0x63, 0x1FA3⟩),
   (2493, ⟨0x64, 0x1FA4⟩), (2494, ⟨0x65, 0x1FA5⟩), (2495, ⟨0x66, 0x1FA6⟩),
   (2496, ⟨0x67, 0x1FA7⟩), (2497, ⟨0x68, 0x1FA8⟩), (2498, ⟨0x69, 0x1FA9⟩),
   (2499, ⟨0x6A, 0x1FAA⟩), (2500, ⟨0x6B, 0x1FAB⟩), (2501, ⟨0x6C, 0x1FAC⟩),
   (2502, ⟨0x6D, 0x1FAD⟩), (2503, ⟨0x6E, 0x1FAE⟩), (2504, ⟨0x6F, 0x1FAF⟩),
   (2505, ⟨0x70, 0x1FB2⟩), (2509, ⟨0x74, 0x1FC2⟩), (2517, ⟨0x7C, 0x1FF2⟩),
   (2531, ⟨0x91, 0x1FBC⟩), (2537, ⟨0x97, 0x1FCC⟩), (2555, ⟨0xA9, 0x1FFC⟩),
   (2558, ⟨0xAC, 0x1FB4⟩), (2560, ⟨0xAE, 0x1FC4⟩), (2563, ⟨0xB1, 0x1FB3⟩),
   (2569, ⟨0xB7, 0x1FC3⟩), (2575, ⟨0xB6, 0x1FB7⟩), (2587, ⟨0xC9, 0x1FF3⟩),
   (2591, ⟨0xC6, 0x1FC7⟩), (2592, ⟨0xCE, 0x1FF4⟩), (2610, ⟨0x0, 0x1F80⟩), (2611, ⟨0x1, 0x1F81⟩),
   (2612, ⟨0x2, 0x1F82⟩), (2613, ⟨0x3, 0x1F83⟩), (2614, ⟨0x4, 0x1F84⟩), (2615, ⟨0x5, 0x1F85⟩),
   (2616, ⟨0x6, 0x1F86⟩), (2617, ⟨0x7, 0x1F87⟩), (2618, ⟨0x8, 0x1F88⟩), (2619, ⟨0x9, 0x1F89⟩),
   (2620, ⟨0xA, 0x1F8A⟩), (2621, ⟨0xB, 0x1F8B⟩), (2622, ⟨0xC, 0x1F8C⟩), (2623, ⟨0xD, 0x1F8D⟩),
   (2624, ⟨0xE, 0x1F8E⟩), (2625, ⟨0xF, 0x1F8F⟩), (2639, ⟨0xF6, 0x1FF7⟩), (2642, ⟨0x20, 0x1F90⟩),
   (2643, ⟨0x21, 0x1F91⟩), (2644, ⟨0x22, 0x1F92⟩), (2645, ⟨0x23, 0x1F93⟩),
   (2646, ⟨0x24, 0x1F94⟩), (2647, ⟨0x25, 0x1F95⟩), (2648, ⟨0x26, 0x1F96⟩),
   (2649, ⟨0x27, 0x1F97⟩), (2650, ⟨0x28, 0x1F98⟩), (2651, ⟨0x29, 0x1F99⟩),
   (2652, ⟨0x2A, 0x1F9A⟩), (2653, ⟨0x2B, 0x1F9B⟩), (2654, ⟨0x2C, 0x1F9C⟩),
   (2655, ⟨0x2D, 0x1F9D⟩), (2656, ⟨0x2E, 0x1F9E⟩), (2657, ⟨0x2F, 0x1F9F⟩), (2658, ⟨0x27, 0x622⟩),
   (2659, ⟨0x48, 0x624⟩), (2660, ⟨0xC1, 0x6C2⟩), (2661, ⟨0x4A, 0x626⟩), (2662, ⟨0x27, 0x623⟩),
   (2665, ⟨0xD2, 0x6D3⟩), (2668, ⟨0xD5, 0x6C0⟩), (2669, ⟨0x27, 0x625⟩), (2670, ⟨0x33, 0x934⟩),
   (2672, ⟨0x30, 0x931⟩), (2674, ⟨0x28, 0x929⟩), (2675, ⟨0xC7, 0x9CB⟩), (2676, ⟨0xC7, 0x9CC⟩),
   (2677, ⟨0x47, 0xB4B⟩), (2678, ⟨0x47, 0xB48⟩), (2679, ⟨0x47, 0xB4C⟩), (2680, ⟨0xC6, 0xBCA⟩),
   (2681, ⟨0xC7, 0xBCB⟩), (2683, ⟨0x92, 0xB94⟩), (2684, ⟨0xC6, 0xBCC⟩), (2685, ⟨0x46, 0xC48⟩),
   (2686, ⟨0xC6, 0xCCA⟩), (2687, ⟨0xC6, 0xCC7⟩), (2688, ⟨0xCA, 0xCCB⟩), (2689, ⟨0xBF, 0xCC0⟩),
   (2690, ⟨0xC6, 0xCC8⟩), (2691, ⟨0x46, 0xD4A⟩), (2692, ⟨0x47, 0xD4B⟩), (2693, ⟨0x46, 0xD4C⟩),
   (2694, ⟨0xDC, 0xDDD⟩)]

def cp1sEntriesPart9 : List (ℕ × CP1) :=
  [(2695, ⟨0xD9, 0xDDA⟩), (2696, ⟨0xD9, 0xDDC⟩), (2697, ⟨0xD9, 0xDDE⟩), (2698, ⟨0x25, 0x1026⟩),
   (2700, ⟨0x11, 0x1B12⟩), (2701, ⟨0x42, 0x1B43⟩), (2704, ⟨0x5, 0x1B06⟩), (2706, ⟨0x7, 0x1B08⟩),
   (2708, ⟨0x9, 0x1B0A⟩), (2709, ⟨0x3A, 0x1B3B⟩), (2710, ⟨0xB, 0x1B0C⟩), (2711, ⟨0x3C, 0x1B3D⟩),
   (2712, ⟨0xD, 0x1B0E⟩), (2713, ⟨0x3E, 0x1B40⟩), (2714, ⟨0x3F, 0x1B41⟩), (2715, ⟨0x9D, 0x309E⟩),
   (2716, ⟨0xFD, 0x30FE⟩), (2723, ⟨0x46, 0x3094⟩), (2724, ⟨0xA6, 0x30F4⟩),
   (2728, ⟨0x4B, 0x304C⟩), (2729, ⟨0xAB, 0x30AC⟩), (2730, ⟨0x4D, 0x304E⟩),
   (2731, ⟨0xAD, 0x30AE⟩), (2732, ⟨0x4F, 0x3050⟩), (2733, ⟨0xAF, 0x30B0⟩),
   (2734, ⟨0x51, 0x3052⟩), (2735, ⟨0xB1, 0x30B2⟩), (2736, ⟨0x53, 0x3054⟩),
   (2737, ⟨0xB3, 0x30B4⟩), (2738, ⟨0x55, 0x3056⟩), (2739, ⟨0xB5, 0x30B6⟩),
   (2740, ⟨0x57, 0x3058⟩), (2741, ⟨0xB7, 0x30B8⟩), (2742, ⟨0x59, 0x305A⟩),
   (2743, ⟨0xB9, 0x30BA⟩), (2744, ⟨0x5B, 0x305C⟩), (2745, ⟨0xBB, 0x30BC⟩),
   (2746, ⟨0x5D, 0x305E⟩), (2747, ⟨0xBD, 0x30BE⟩), (2748, ⟨0x5F, 0x3060⟩),
   (2749, ⟨0xBF, 0x30C0⟩), (2750, ⟨0x61, 0x3062⟩), (2751, ⟨0xC1, 0x30C2⟩),
   (2753, ⟨0x64, 0x3065⟩), (2754, ⟨0xC4, 0x30C5⟩), (2755, ⟨0x66, 0x3067⟩),
   (2756, ⟨0xC6, 0x30C7⟩), (2757, ⟨0x68, 0x3069⟩), (2758, ⟨0xC8, 0x30C9⟩),
   (2764, ⟨0x6F, 0x3070⟩), (2765, ⟨0xCF, 0x30D0⟩), (2767, ⟨0x72, 0x3073⟩),
   (2768, ⟨0xD2, 0x30D3⟩), (2770, ⟨0x75, 0x3076⟩), (2771, ⟨0xD5, 0x30D6⟩),
   (2773, ⟨0x78, 0x3079⟩), (2774, ⟨0xD8, 0x30D9⟩), (2776, ⟨0x7B, 0x307C⟩),
   (2777, ⟨0xDB, 0x30DC⟩), (2797, ⟨0xEF, 0x30F7⟩), (2798, ⟨0xF0, 0x30F8⟩),
   (2799, ⟨0xF1, 0x30F9⟩), (2800, ⟨0xF2, 0x30FA⟩), (2801, ⟨0x72, 0x3074⟩),
   (2802, ⟨0xDB, 0x30DD⟩), (2803, ⟨0xCF, 0x30D1⟩), (2804, ⟨0x75, 0x3077⟩),
   (2806, ⟨0xD2, 0x30D4⟩), (2807, ⟨0x78, 0x307A⟩), (2809, ⟨0xD5, 0x30D7⟩),
   (2810, ⟨0x7B, 0x307D⟩), (2811, ⟨0x6F, 0x3071⟩), (2812, ⟨0xD8, 0x30DA⟩),
   (2813, ⟨0xA5, 0x110AB⟩), (2815, ⟨0x99, 0x1109A⟩), (2817, ⟨0x9B, 0x1109C⟩),
   (2818, ⟨0x32, 0x1112F⟩), (2819, ⟨0x31, 0x1112E⟩), (2820, ⟨0x47, 0x1134B⟩),
   (2821, ⟨0x47, 0x1134C⟩), (2822, ⟨0xB9, 0x114BC⟩), (2823, ⟨0xB9, 0x114BB⟩),
   (2824, ⟨0xB9, 0x114BE⟩), (2825, ⟨0xB8, 0x115BA⟩), (2826, ⟨0xB9, 0x115BB⟩),
   (2827, ⟨0x35, 0x11938⟩)]

/-- The slots of `cp1s` other than `{0x0U, 0x0U}`. -/
def cp1sEntries : List (ℕ × CP1) :=
  cp1sEntriesPart0 ++ cp1sEntriesPart1 ++ cp1sEntriesPart2 ++ cp1sEntriesPart3 ++ cp1sEntriesPart4 ++
    cp1sEntriesPart5 ++ cp1sEntriesPart6 ++ cp1sEntriesPart7 ++ cp1sEntriesPart8 ++ cp1sEntriesPart9

/-- `cp1s[pos]` -/
def cp1s (pos : ℕ) : CP1 := SparseTable.lookup cp1sEntries ⟨0, 0⟩ pos

end Webpp.Unicode
