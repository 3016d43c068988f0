import SinkTrace.Libraries.CharSet

/-!
Scripts that characters belong to. Some characters of the common and of the inherited ones are
used with several scripts and belong to their extensions.
-/

namespace SinkTrace

structure Script where
  /-- In lower case and without separators. -/
  names : List String
  /-- The runs of characters of the script, given by gaps and lengths. -/
  runs : String
  /-- The runs of further characters that are used with it. -/
  extra : String := ""

namespace Script

def all : List Script :=
  [⟨["adlm", "adlam"], "2olc 23 4 9 4 1", "17j 0 w 0"⟩,
    ⟨["ahom"], "1j40 q 2 e 4 m", ""⟩,
    ⟨["hluw", "anatolianhieroglyphs"], "1s00 g6", ""⟩,
    ⟨["arab", "arabic"],
      "16o 4 1 5 1 d 1 2 1 v 1 9 b p 1 2z 1 x 28 1b 6o u 1 1 6 21 1 s 1bv4 36 g a2 2 27 2 1h 7 0
      w f 34 4 1 3q 31f u 3i 2 181s 3 1 q 1 1 1 0 2 0 1 9 1 3 1 0 1 0 6 0 4 0 1 0 1 0 1 2 1 1 1
      0 2 0 1 0 1 0 1 0 1 0 1 1 1 0 2 3 1 6 1 3 1 3 1 0 1 9 1 g 5 2 1 4 1 g 1g 1",
      "170 0 e 0 3 0 w 0 a a q 0 1cr1 1 140 r"⟩,
    ⟨["armn", "armenian"], "10x 11 2 1d 2 2 1chv 4", ""⟩,
    ⟨["avst", "avestan"], "1gqo 1h 3 6", ""⟩,
    ⟨["bali", "balinese"], "5c0 24 3 1a", ""⟩,
    ⟨["bamu", "bamum"], "www 2f 124o fs", ""⟩,
    ⟨["bass", "bassavah"], "1zo0 t 2 5", ""⟩,
    ⟨["batk", "batak"], "5hc 1f 8 3", ""⟩,
    ⟨["beng", "bengali"],
      "1vk 3 1 7 2 1 2 l 1 6 1 0 3 3 2 8 2 1 2 3 8 0 4 1 1 4 2 o",
      "1u9 1 h 1 3u2 0 1 0 2 1 1 0 8 0 8 0 2 0 4 0 2 2 rnd 0"⟩,
    ⟨["bhks", "bhaiksuki"], "1k3k 8 1 18 1 d a s", ""⟩,
    ⟨["bopo", "bopomofo"], "kq 1 93t 16 34 v", "9hd 2 4 9 1 c a 3 2 0 6 0 5f 0 14jt 1 7u 4"⟩,
    ⟨["brah", "brahmi"], "1hq8 25 4 z 9 0", ""⟩,
    ⟨["brai", "braille"], "7wg 73", ""⟩,
    ⟨["bugi", "buginese"], "54w r 2 1", "xjj 0"⟩,
    ⟨["buhd", "buhid"], "4lc j", "4l1 1"⟩,
    ⟨["cans", "canadianaboriginal"], "3y8 hr fk 1x 1ewq f", ""⟩,
    ⟨["cari", "carian"], "1f34 1c", ""⟩,
    ⟨["aghb", "caucasianalbanian"], "1flc 1f b 0", ""⟩,
    ⟨["cakm", "chakma"], "1hxc 1g 1 h", "1ye 9 18w 9"⟩,
    ⟨["cham"], "xkw 1i 9 d 2 9 2 3", ""⟩,
    ⟨["cher", "cherokee"], "3vk 2d 2 5 twy 27", ""⟩,
    ⟨["chrs", "chorasmian"], "1ho0 r", ""⟩,
    ⟨["zyyy", "common"],
      "0 1s q 5 q 1a 1 e 1 4 n 0 v 0 ch 12 5 4 2 j 38 0 9 0 6 0 1 0 hp 0 6 0 e 0 3 0 w 0 4c 0 ec
      0 3l 1 yh 0 b9 3 82 0 167 2 1z 1 5n 1 1 0 y5 0 d 0 7 3 1 5 1 2 2 0 lh b 2 2e 1 a 3 a 1 e h
      w 1r 11 1 2 2 5 1 q 1 g 15 2 4 ie p a l pr 74 hf 2 v 1 2w e8 2l b6 b 4 4 1 0 1 o f 7 4 3
      2j 1 3 0 2i 1 43 f w z 1o 1r v 28 1b 0 2g 4n 534 1r hkw x 2u 2 4l 9 6s 0 4g 0 az 0 e 1 g5u
      1 5s 9 m y 1 i 1 3 43 0 1 v q 5 q a a 0 19 1 1s 6 1 6 a 4 76 2 4 18 3 8 28 c 1f 18 6c q
      10o4 3 3os 37 1o 6t a 12 2 1p 3 g 8 1 7 t 4 1o 5x j c j c 2e 9 o 3r 2c 1 1y 1 1 2 0 2 1 2
      3 1 b 1 0 1 6 1 1s 1 3 2 7 1 6 1 r 1 3 1 4 1 0 3 6 1 9f 2 83 2 1d 41d 1v 24 1o jm 17 4 2r
      c e 2 e 1 e 1 10 a 4t 1k p 1 1 d 17 4 8 7 1 e 5 4a rb 4 g 3 c 3 3a 4 2m 6 b 4 0 f b 4 1j 8
      9 6 13 8 t 2 1 26 9f c d 2 c 3 8 7 19 1 6 8 d 4 8 7 8 7 42 1 1i 11 9 gvlz 0 u 2n",
      ""⟩,
    ⟨["copt", "coptic", "qaac"], "rm d 80g 37 5 6", "1f4w r"⟩,
    ⟨["xsux", "cuneiform"], "1kw0 pl 2u 32 1 4 b 5f", ""⟩,
    ⟨["cprt", "cypriot"], "1g5c 5 2 0 1 17 1 1 3 0 2 0", "1erk 2 4 18 3 8"⟩,
    ⟨["cpmn", "cyprominoan"], "1nyo 2q", "1erk 1"⟩,
    ⟨["cyrl", "cyrillic"],
      "sg 3o 2 4o 4ls 8 4i 0 24 0 38n v nr4 2n ham 1 18n4 1p x 0",
      "w5 1 50x 0 37u 0"⟩,
    ⟨["dsrt", "deseret"], "1fcw 27", ""⟩,
    ⟨["deva", "devanagari"], "1s0 28 4 e 2 p vhc v mio 9", "1u9 1 h 1 3u2 12 1 1 s6 0 qpr 9"⟩,
    ⟨["diak", "divesakuru"], "1ji8 6 2 0 2 7 1 1 1 t 1 1 2 b 9 9", ""⟩,
    ⟨["dogr", "dogra"], "1jb4 1n", "1us b vcw 9"⟩,
    ⟨["dupl", "duployan"], "2fpc 2y 5 c 3 8 7 9 2 3", "2fts 3"⟩,
    ⟨["egyp", "egyptianhieroglyphs"], "1o1s ut", ""⟩,
    ⟨["elba", "elbasan"], "1fk0 13", ""⟩,
    ⟨["elym", "elymaic"], "1hpc m", ""⟩,
    ⟨["ethi", "ethiopic"],
      "3k0 20 1 3 2 6 1 0 1 3 2 14 1 3 2 w 1 3 2 6 1 0 1 3 2 e 1 1k 1 3 2 1u 2 v 3 p 546 m 9 6 1
      6 1 6 1 6 1 6 1 6 1 6 1 6 opu 5 2 5 2 5 9 6 1 6 1qk1 6 1 3 1 1 1 e",
      ""⟩,
    ⟨["gara", "garay"], "1h6o 11 3 s 8 1", ""⟩,
    ⟨["geor", "georgian"], "3a8 11 1 0 5 0 2 16 1 3 2a8 16 2 2 37k 11 1 0 5 0", "3cr 0"⟩,
    ⟨["glag", "glagolitic"], "8ow 2n 2e1s 6 1 g 2 6 1 1 1 4", "w4 0 2 0 88r 0 nqj 0"⟩,
    ⟨["goth", "gothic"], "1f74 q", ""⟩,
    ⟨["gran", "grantha"],
      "1ibk 3 1 7 2 1 2 l 1 6 1 1 1 4 2 8 2 1 2 2 2 0 6 0 5 6 2 6 3 4",
      "1u9 1 h 1 hs d 3bw 0 1 1 u 2 3 1 s6 0 1buy 0 2hg 1 1 0"⟩,
    ⟨["grek", "greek"],
      "og 3 1 2 2 3 1 0 4 0 1 0 1 2 1 0 1 j 1 1q e f 4yu 4 1e 4 4 4 2c 0 8w l 2 5 2 11 2 5 2 7 1
      0 1 0 1 0 1 u 2 1g 1 e 1 d 2 5 1 i 2 2 1 8 87 0 rb2 0 gyi 26 h 0 155r 1x",
      "n6 0 2 0 58a 1"⟩,
    ⟨["gujr", "gujarati"],
      "22p 2 1 8 1 2 1 l 1 6 1 1 1 4 2 9 1 2 1 2 2 0 f 3 2 b 7 6",
      "1u9 1 h 1 vd6 9"⟩,
    ⟨["gong", "gunjalagondi"], "1kdc 5 1 1 1 10 1 1 1 5 7 9", "1us 1"⟩,
    ⟨["guru", "gurmukhi"],
      "1z5 2 1 5 4 1 2 l 1 6 1 1 1 1 1 1 2 0 1 4 4 1 2 2 3 0 7 3 1 0 7 g",
      "1u9 1 h 1 vd6 9"⟩,
    ⟨["gukh", "gurungkhema"], "1xq8 1l", ""⟩,
    ⟨["hani", "han"],
      "96o p 1 2g c 5x 1b 0 1 0 p 8 e 3 qs 533 1s g73 hkw a5 2 2x n48 1 c 1 sge wyn w 37d 6 65 2
      4g1 e 5rk 2e7 f1 15u 3t6 5 38f",
      "9hd 2 2 0 1 9 1 c a 3 2 0 6 0 4 3 57 0 44 f w z 1o 13 1k 1c f b 1f 0 2g o a 4 2o u mpt 7
      h8d 1 7u 4 15ve h 63i 1"⟩,
    ⟨["hang", "hangul"],
      "3cw 73 5ym 1 75 2l 35 u 1t u nhd s hv 8mb c m 4 1c 7tw u 3 5 2 5 2 5 2 2",
      "9hd 2 4 9 1 c g 0 6 0 5f 0 14jt 1 7u 4"⟩,
    ⟨["rohg", "hanifirohingya"], "1h4w 13 8 9", "170 0 e 0 3 0 w 0 43 0"⟩,
    ⟨["hano", "hanunoo"], "4kg k", "4l1 1"⟩,
    ⟨["hatr", "hatran"], "1gbk i 1 1 5 4", ""⟩,
    ⟨["hebr", "hebrew"], "13l 1i 8 q 4 5 1cfc p 1 4 1 0 1 1 1 1 1 9", ""⟩,
    ⟨["hira", "hiragana"],
      "9j5 2d 6 2 23q9 7y i 0 t 2 crx 0",
      "9hd 2 4 9 1 c g 5 1 0 4 1 2j 3 3 0 2i 1 14js 1 7u 4 a 0 19 1"⟩,
    ⟨["armi", "imperialaramaic"], "1g74 l 1 8", ""⟩,
    ⟨["zinh", "inherited", "qaai"],
      "lc 33 7p 1 ck a q 0 kg 3 3ff u e9 2 1 c 1 6 4 0 6 0 3 1 5i 1r ek 1 5e w 309 3 2z 1 14kl f
      g d r3 0 6a 0 38a 0 1138 19 2 m f4 2 h 7 2 6 u 3 h45u 6n",
      ""⟩,
    ⟨["phli", "inscriptionalpahlavi"], "1gtc i 5 7", ""⟩,
    ⟨["prti", "inscriptionalparthian"], "1gsg l 2 7", ""⟩,
    ⟨["java", "javanese"], "xhc 25 2 9 4 1", "xjj 0"⟩,
    ⟨["kthi", "kaithi"], "1hts 1u a 0", "1uu 9 vcw 9"⟩,
    ⟨["knda", "kannada"],
      "2gw c 1 2 1 m 1 9 1 4 2 8 1 2 1 3 7 1 6 1 1 3 2 9 1 2",
      "1u9 1 h 1 3u2 0 1 0 7 0 n 0 1 0 ri3 5"⟩,
    ⟨["kana", "katakana"],
      "9lt 2h 2 2 6o f 5s 1a 1 2f 14b2 9 1 18 ytu 3 1 6 1 1 1 0 7z 2 1e 0 e 3",
      "9hd 2 4 9 1 c g 5 1 0 4 1 2j 3 3 0 2i 1 14js 1 7u 4 a 0 19 1"⟩,
    ⟨["kawi"], "1kow g 1 14 3 r", ""⟩,
    ⟨["kali", "kayahli"], "xds 19 1 0", "xf2 0"⟩,
    ⟨["khar", "kharoshthi"], "1gjk 3 1 1 5 7 1 2 1 s 2 2 4 9 7 8", ""⟩,
    ⟨["kits", "khitansmallscript"], "20o4 0 5cr d1", ""⟩,
    ⟨["khmr", "khmer"], "4n4 2l 2 9 6 9 di v", ""⟩,
    ⟨["khoj", "khojki"], "1i4g h 1 1a", "25i 9 v28 9"⟩,
    ⟨["sind", "khudawadi"], "1i9c 1m 5 9", "1us 1 vd6 9"⟩,
    ⟨["krai", "kiratrai"], "205c 1l", ""⟩,
    ⟨["laoo", "lao"], "2v5 1 1 0 1 4 1 n 1 0 1 m 2 4 1 0 1 6 1 9 2 3", ""⟩,
    ⟨["latn", "latin"],
      "1t p 6 p 1b 0 f 0 5 m 1 u 1 cg 13 4 55n 11 6 1c 5 3 5 c 1 1x 1t 73 a9 0 d 0 g c 3x 1 6 0 r
      0 h 14 253 v o82 2t 3 1r 5 1 1 0 1 4 o d mo 16 1 8 1 3 fpy 6 t6 p 6 p 1lx 5 1 15 1 8 16it
      u 6 5",
      "o3 c 7p 1 y2 1 1ig 0 303 0 5c 0 qhb 7 fa 0"⟩,
    ⟨["lepc", "lepcha"], "5j4 1j 3 e 3 2", ""⟩,
    ⟨["limb", "limbu"], "4xs u 1 b 4 b 4 0 3 b", "1ut 0"⟩,
    ⟨["lina", "lineara"], "1fr4 8m 9 l a 7", "1err 18"⟩,
    ⟨["linb", "linearb"], "1ekg b 1 p 1 i 1 1 1 e 2 d y 3e", "1erk 2 4 18 3 8"⟩,
    ⟨["lisu"], "wk0 1b o8g 0", ""⟩,
    ⟨["lyci", "lycian"], "1f28 s", ""⟩,
    ⟨["lydi", "lydian"], "1gdc p 5 0", ""⟩,
    ⟨["mahj", "mahajani"], "1hzk 12", "1us b vcw 9"⟩,
    ⟨["maka", "makasar"], "1ko0 o", ""⟩,
    ⟨["mlym", "malayalam"], "2kg c 1 2 1 1e 1 2 1 5 4 f 2 p", "1u9 1 h 1 3uc 0 rit 2"⟩,
    ⟨["mand", "mandaic"], "1mo r 2 0", "18g 0"⟩,
    ⟨["mani", "manichaean"], "1gow 12 4 b", "18g 0"⟩,
    ⟨["marc", "marchen"], "1k6o v 2 l 1 d", ""⟩,
    ⟨["gonm", "masaramgondi"], "1kao 6 1 1 1 17 3 0 1 1 1 8 8 9", "1us 1"⟩,
    ⟨["medf", "medefaidrin"], "20cg 2i", ""⟩,
    ⟨["mtei", "meeteimayek"], "xr4 m 5l 19 2 9", ""⟩,
    ⟨["mend", "mendekikakui"], "2oe8 5g 2 f", ""⟩,
    ⟨["merc", "meroiticcursive"], "1ggw n 4 j 2 19", ""⟩,
    ⟨["mero", "meroitichieroglyphs"], "1gg0 v", ""⟩,
    ⟨["plrd", "miao"], "20hs 22 4 1k 7 g", ""⟩,
    ⟨["modi"], "1iww 1w b 9", "x80 9"⟩,
    ⟨["mong", "mongolian"], "4qo 1 2 0 1 j 6 2g 7 16 1e45 c", "4qq 1 1 0 1m1 0"⟩,
    ⟨["mroo", "mro"], "1zk0 u 1 9 4 1", ""⟩,
    ⟨["mult", "multani"], "1i80 6 1 0 1 3 1 e 1 a", "21y 9"⟩,
    ⟨["mymr", "myanmar"], "35s 4f u9s u 2p v", "xf2 0"⟩,
    ⟨["nbat", "nabataean"], "1g8w u 8 8", ""⟩,
    ⟨["nagm", "nagmundari"], "2nrk 15", ""⟩,
    ⟨["nand", "nandinagari"], "1jmo 7 2 19 2 a", "1us 1 ow 9 35l 0 8 0 7 0 rhx 5"⟩,
    ⟨["newa"], "1iio 2j 1 4", ""⟩,
    ⟨["talu", "newtailue"], "51c 17 4 p 6 a 3 1", ""⟩,
    ⟨["nkoo", "nko"], "1j4 1m 2 2", "170 0 e 0 3 0 1cta 1"⟩,
    ⟨["nshu", "nushu"], "20o1 0 cy6 az", ""⟩,
    ⟨["hmnp", "nyiakengpuachuehmong"], "2n0g 18 3 d 2 9 4 1", ""⟩,
    ⟨["ogam", "ogham"], "4g0 s", ""⟩,
    ⟨["olck", "olchiki"], "5lc 1b", ""⟩,
    ⟨["hung", "oldhungarian"], "1h1c 1e d 1e 7 5", ""⟩,
    ⟨["ital", "olditalic"], "1f5s z 9 2", ""⟩,
    ⟨["narb", "oldnortharabian"], "1gn4 v", ""⟩,
    ⟨["perm", "oldpermic"], "1f80 16", "w3 0"⟩,
    ⟨["xpeo", "oldpersian"], "1fa8 z 4 d", ""⟩,
    ⟨["sogo", "oldsogdian"], "1hj4 13", ""⟩,
    ⟨["sarb", "oldsoutharabian"], "1gm8 v", ""⟩,
    ⟨["orkh", "oldturkic"], "1gxs 20", ""⟩,
    ⟨["ougr", "olduyghur"], "1hm8 p", "18g 0 1fht 0"⟩,
    ⟨["onao", "olonal"], "2nyo 16 4 0", ""⟩,
    ⟨["orya", "oriya"],
      "269 2 1 7 2 1 2 l 1 6 1 1 1 4 2 8 2 1 2 2 7 2 4 1 1 4 2 h",
      "1u9 1 h 1 3uc 0 n 0"⟩,
    ⟨["osge", "osage"], "1fhs z 4 z", ""⟩,
    ⟨["osma", "osmanya"], "1fgg t 2 9", ""⟩,
    ⟨["hmng", "pahawhhmong"], "1zpc 1x a 9 1 6 1 k 5 i", ""⟩,
    ⟨["palm", "palmyrene"], "1g80 v", ""⟩,
    ⟨["pauc", "paucinhau"], "1juo 1k", ""⟩,
    ⟨["phag", "phagspa"], "x8g 1j", "4qq 1 1 0"⟩,
    ⟨["phnx", "phoenician"], "1gcg r 3 0", ""⟩,
    ⟨["phlp", "psalterpahlavi"], "1gu8 h 7 3 c 6", "18g 0"⟩,
    ⟨["rjng", "rejang"], "xf4 z b 0", ""⟩,
    ⟨["runr", "runic"], "4gw 22 3 a", ""⟩,
    ⟨["samr", "samaritan"], "1kw 19 2 e", ""⟩,
    ⟨["saur", "saurashtra"], "xa8 1x 8 b", ""⟩,
    ⟨["shrd", "sharada"], "1i0w 2n", "1u9 0 3ut 0 1 0 2 1 2 0"⟩,
    ⟨["shaw", "shavian"], "1ff4 1b", ""⟩,
    ⟨["sidd", "siddham"], "1itc 1h 2 11", ""⟩,
    ⟨["sgnw", "signwriting"], "2l8g i3 f 4 1 e", ""⟩,
    ⟨["sinh", "sinhala"], "2o1 2 1 h 3 n 1 8 1 0 2 6 3 0 4 5 1 0 1 7 6 9 2 2 1fcc j", "1us 1"⟩,
    ⟨["sogd", "sogdian"], "1hkg 15", "18g 0"⟩,
    ⟨["sora", "sorasompeng"], "1hw0 o 7 9", ""⟩,
    ⟨["soyo", "soyombo"], "1jrk 2a", ""⟩,
    ⟨["sund", "sundanese"], "5fk 1r 74 7", ""⟩,
    ⟨["sunu", "sunuwar"], "1k1s x e 9", ""⟩,
    ⟨["sylo", "sylotinagri"], "x6o 18", "1us 1 3k 9"⟩,
    ⟨["syrc", "syriac"], "1ds d 1 1n 2 2 7k a", "170 0 e 1 2 0 w 0 a a q 0 4nb 0 1 0"⟩,
    ⟨["tglg", "tagalog"], "4jk l 9 0", "4l1 1"⟩,
    ⟨["tagb", "tagbanwa"], "4m8 c 1 2 1 1", "4l1 1"⟩,
    ⟨["tale", "taile"], "500 t 2 4", "37k 9"⟩,
    ⟨["lana", "taitham"], "55s 1q 1 s 2 a 6 9 6 d", ""⟩,
    ⟨["tavt", "taiviet"], "xog 1u o 4", ""⟩,
    ⟨["takr", "takri"], "1j0g 1l 6 9", "1us 1 vd6 9"⟩,
    ⟨["taml", "tamil"],
      "29u 1 1 5 3 2 1 3 3 1 1 0 1 1 3 1 3 2 3 b 4 4 3 2 1 3 2 0 6 0 e k 1ih1 1d d 0",
      "1u9 1 h 1 3uc 0 ro8 0 ky5 0 1 0 1j 1"⟩,
    ⟨["tnsa", "tangsa"], "1zlc 26 1 9", ""⟩,
    ⟨["tang", "tangut"], "20o0 0 v 4qf 8 lb e8 8", ""⟩,
    ⟨["telu", "telugu"],
      "2dc c 1 2 1 m 1 f 2 8 1 2 1 3 7 1 1 2 2 0 2 3 2 9 7 8",
      "1u9 1 h 1 3uc 0 n 0"⟩,
    ⟨["thaa", "thaana"], "1hc 1d", "170 0 e 1 2 0 1s 9 1cw8 0 a 0"⟩,
    ⟨["thai"], "2rl 1l 5 r", ""⟩,
    ⟨["tibt", "tibetan"], "2yo 1z 1 z 4 12 1 z 1 e 1 6 4 1", ""⟩,
    ⟨["tfng", "tifinagh"], "8xc 1j 7 1 e 0", ""⟩,
    ⟨["tirh", "tirhuta"], "1im8 1z 8 9", "1u9 1 h 1 3v0 0 ri5 9"⟩,
    ⟨["todr", "todhri"], "1fpc 1f", ""⟩,
    ⟨["toto"], "2nbk u", ""⟩,
    ⟨["tutg", "tulutigalari"], "1if4 9 1 0 2 0 1 11 1 9 1 0 2 0 1 3 1 9 1 1 8 1", ""⟩,
    ⟨["ugar", "ugaritic"], "1f9c t 1 0", ""⟩,
    ⟨["vaii", "vai"], "wlc 8b", ""⟩,
    ⟨["vith", "vithkuqi"], "1fn4 a 1 e 1 6 1 1 1 a 1 e 1 6 1 1", ""⟩,
    ⟨["wcho", "wancho"], "2ncw 1l 5 0", ""⟩,
    ⟨["wara", "warangciti"], "1jfk 2a c 0", ""⟩,
    ⟨["yezi", "yezidi"], "1hfk 15 1 2 2 1", "170 0 e 0 3 0 1s 9"⟩,
    ⟨["yiii", "yi"], "vls wc 3 1i", "9hd 1 5 9 2 7 67 0 14rp 4"⟩,
    ⟨["zanb", "zanabazarsquare"], "1jpc 1z", ""⟩]

def named? (name : String) : Option Script := all.find? (·.names.contains name)

def set (s : Script) : CharSet := .ofRuns s.runs

/-- Whether a script stands for no script in particular. -/
def isGeneral (s : Script) : Bool := s.names.contains "common" || s.names.contains "inherited"

/-- The characters that are used with a script. -/
def extended (s : Script) : CharSet :=
  if s.isGeneral then s.set.difference (.unions (all.map fun t => .ofRuns t.extra))
  else s.set.union (.ofRuns s.extra)

end Script

end SinkTrace
