import VhdlWorkbench.Text.Lowercase

/-!
Colours by name; of several names with one colour the last is the name of the colour.
-/

namespace VhdlWorkbench.Colour

def colourShades : List (String × String) :=
  [("black", "000000"), ("aliceblue", "f0f8ff"), ("blueviolet", "8a2be2"),
   ("cadetblue", "5f9ea0 98f5ff 8ee5ee 7ac5cd 53868b"), ("cornflowerblue", "6495ed"),
   ("darkblue", "00008b"), ("darkcyan", "008b8b"), ("darkslateblue", "483d8b"),
   ("darkturquoise", "00ced1"), ("deepskyblue", "00bfff 00bfff 00b2ee 009acd 00688b"),
   ("dodgerblue", "1e90ff 1e90ff 1c86ee 1874cd 104e8b"),
   ("lightblue", "add8e6 bfefff b2dfee 9ac0cd 68838b"),
   ("lightcyan", "e0ffff e0ffff d1eeee b4cdcd 7a8b8b"),
   ("lightskyblue", "87cefa b0e2ff a4d3ee 8db6cd 607b8b"), ("lightslateblue", "8470ff"),
   ("lightsteelblue", "b0c4de cae1ff bcd2ee a2b5cd 6e7b8b"), ("mediumaquamarine", "66cdaa"),
   ("mediumblue", "0000cd"), ("mediumslateblue", "7b68ee"), ("mediumturquoise", "48d1cc"),
   ("midnightblue", "191970"), ("navyblue", "000080"),
   ("paleturquoise", "afeeee bbffff aeeeee 96cdcd 668b8b"), ("powderblue", "b0e0e6"),
   ("royalblue", "4169e1 4876ff 436eee 3a5fcd 27408b"),
   ("skyblue", "87ceeb 87ceff 7ec0ee 6ca6cd 4a708b"),
   ("slateblue", "6a5acd 836fff 7a67ee 6959cd 473c8b"),
   ("steelblue", "4682b4 63b8ff 5cacee 4f94cd 36648b"),
   ("aquamarine", "7fffd4 7fffd4 76eec6 66cdaa 458b74"),
   ("azure", "f0ffff f0ffff e0eeee c1cdcd 838b8b"), ("blue", "0000ff 0000ff 0000ee 0000cd 00008b"),
   ("cyan", "00ffff 00ffff 00eeee 00cdcd 008b8b"), ("navy", "000080"),
   ("turquoise", "40e0d0 00f5ff 00e5ee 00c5cd 00868b"),
   ("rosybrown", "bc8f8f ffc1c1 eeb4b4 cd9b9b 8b6969"), ("saddlebrown", "8b4513"),
   ("sandybrown", "f4a460"), ("beige", "f5f5dc"), ("brown", "a52a2a ff4040 ee3b3b cd3333 8b2323"),
   ("burlywood", "deb887 ffd39b eec591 cdaa7d 8b7355"),
   ("chocolate", "d2691e ff7f24 ee7621 cd661d 8b4513"), ("peru", "cd853f"),
   ("tan", "d2b48c ffa54f ee9a49 cd853f 8b5a2b"),
   ("darkslategray", "2f4f4f 97ffff 8deeee 79cdcd 528b8b"), ("darkslategrey", "2f4f4f"),
   ("dimgray", "696969"), ("dimgrey", "696969"), ("lightgray", "d3d3d3"), ("lightgrey", "d3d3d3"),
   ("lightslategray", "778899"), ("lightslategrey", "778899"),
   ("slategray", "708090 c6e2ff b9d3ee 9fb6cd 6c7b8b"), ("slategrey", "708090"), ("gray", "bebebe"),
   ("grey", "bebebe"), ("darkgreen", "006400"), ("darkkhaki", "bdb76b"),
   ("darkolivegreen", "556b2f caff70 bcee68 a2cd5a 6e8b3d"),
   ("darkseagreen", "8fbc8f c1ffc1 b4eeb4 9bcd9b 698b69"), ("forestgreen", "228b22"),
   ("greenyellow", "adff2f"), ("lawngreen", "7cfc00"), ("lightgreen", "90ee90"),
   ("lightseagreen", "20b2aa"), ("limegreen", "32cd32"), ("mediumseagreen", "3cb371"),
   ("mediumspringgreen", "00fa9a"), ("mintcream", "f5fffa"),
   ("olivedrab", "6b8e23 c0ff3e b3ee3a 9acd32 698b22"),
   ("palegreen", "98fb98 9aff9a 90ee90 7ccd7c 548b54"),
   ("seagreen", "2e8b57 54ff9f 4eee94 43cd80 2e8b57"),
   ("springgreen", "00ff7f 00ff7f 00ee76 00cd66 008b45"), ("yellowgreen", "9acd32"),
   ("chartreuse", "7fff00 7fff00 76ee00 66cd00 458b00"),
   ("green", "00ff00 00ff00 00ee00 00cd00 008b00"), ("khaki", "f0e68c fff68f eee685 cdc673 8b864e"),
   ("darkorange", "ff8c00 ff7f00 ee7600 cd6600 8b4500"), ("darksalmon", "e9967a"),
   ("lightcoral", "f08080"), ("lightsalmon", "ffa07a ffa07a ee9572 cd8162 8b5742"),
   ("peachpuff", "ffdab9 ffdab9 eecbad cdaf95 8b7765"),
   ("bisque", "ffe4c4 ffe4c4 eed5b7 cdb79e 8b7d6b"),
   ("coral", "ff7f50 ff7256 ee6a50 cd5b45 8b3e2f"),
   ("honeydew", "f0fff0 f0fff0 e0eee0 c1cdc1 838b83"),
   ("orange", "ffa500 ffa500 ee9a00 cd8500 8b5a00"),
   ("salmon", "fa8072 ff8c69 ee8262 cd7054 8b4c39"),
   ("sienna", "a0522d ff8247 ee7942 cd6839 8b4726"), ("darkred", "8b0000"),
   ("deeppink", "ff1493 ff1493 ee1289 cd1076 8b0a50"),
   ("hotpink", "ff69b4 ff6eb4 ee6aa7 cd6090 8b3a62"),
   ("indianred", "cd5c5c ff6a6a ee6363 cd5555 8b3a3a"),
   ("lightpink", "ffb6c1 ffaeb9 eea2ad cd8c95 8b5f65"), ("mediumvioletred", "c71585"),
   ("mistyrose", "ffe4e1 ffe4e1 eed5d2 cdb7b5 8b7d7b"),
   ("orangered", "ff4500 ff4500 ee4000 cd3700 8b2500"),
   ("palevioletred", "db7093 ff82ab ee799f cd6889 8b475d"),
   ("violetred", "d02090 ff3e96 ee3a8c cd3278 8b2252"),
   ("firebrick", "b22222 ff3030 ee2c2c cd2626 8b1a1a"),
   ("pink", "ffc0cb ffb5c5 eea9b8 cd919e 8b636c"), ("red", "ff0000 ff0000 ee0000 cd0000 8b0000"),
   ("tomato", "ff6347 ff6347 ee5c42 cd4f39 8b3626"), ("darkmagenta", "8b008b"),
   ("darkorchid", "9932cc bf3eff b23aee 9a32cd 68228b"), ("darkviolet", "9400d3"),
   ("lavenderblush", "fff0f5 fff0f5 eee0e5 cdc1c5 8b8386"),
   ("mediumorchid", "ba55d3 e066ff d15fee b452cd 7a378b"),
   ("mediumpurple", "9370db ab82ff 9f79ee 8968cd 5d478b"), ("lavender", "e6e6fa"),
   ("magenta", "ff00ff ff00ff ee00ee cd00cd 8b008b"),
   ("maroon", "b03060 ff34b3 ee30a7 cd2990 8b1c62"),
   ("orchid", "da70d6 ff83fa ee7ae9 cd69c9 8b4789"), ("plum", "dda0dd ffbbff eeaeee cd96cd 8b668b"),
   ("purple", "a020f0 9b30ff 912cee 7d26cd 551a8b"),
   ("thistle", "d8bfd8 ffe1ff eed2ee cdb5cd 8b7b8b"), ("violet", "ee82ee"),
   ("antiquewhite", "faebd7 ffefdb eedfcc cdc0b0 8b8378"), ("floralwhite", "fffaf0"),
   ("ghostwhite", "f8f8ff"), ("navajowhite", "ffdead ffdead eecfa1 cdb38b 8b795e"),
   ("oldlace", "fdf5e6"), ("whitesmoke", "f5f5f5"), ("gainsboro", "dcdcdc"),
   ("ivory", "fffff0 fffff0 eeeee0 cdcdc1 8b8b83"), ("linen", "faf0e6"),
   ("seashell", "fff5ee fff5ee eee5de cdc5bf 8b8682"),
   ("snow", "fffafa fffafa eee9e9 cdc9c9 8b8989"), ("wheat", "f5deb3 ffe7ba eed8ae cdba96 8b7e66"),
   ("white", "ffffff"), ("blanchedalmond", "ffebcd"),
   ("darkgoldenrod", "b8860b ffb90f eead0e cd950c 8b6508"),
   ("lemonchiffon", "fffacd fffacd eee9bf cdc9a5 8b8970"),
   ("lightgoldenrod", "eedd82 ffec8b eedc82 cdbe70 8b814c"), ("lightgoldenrodyellow", "fafad2"),
   ("lightyellow", "ffffe0 ffffe0 eeeed1 cdcdb4 8b8b7a"), ("palegoldenrod", "eee8aa"),
   ("papayawhip", "ffefd5"), ("cornsilk", "fff8dc fff8dc eee8cd cdc8b1 8b8878"),
   ("gold", "ffd700 ffd700 eec900 cdad00 8b7500"),
   ("goldenrod", "daa520 ffc125 eeb422 cd9b1d 8b6914"), ("moccasin", "ffe4b5"),
   ("yellow", "ffff00 ffff00 eeee00 cdcd00 8b8b00")]

/-- The share of white in the shades zero to one hundred of grey, for each of the three parts. -/
def greyParts : String :=
  "00 03 05 08 0a 0d 0f 12 14 17 1a 1c 1f 21 24 26 29 2b 2e 30 33 36 38 3b 3d 40 42 45 47 4a " ++
    "4d 4f 52 54 57 59 5c 5e 61 63 66 69 6b 6e 70 73 75 78 7a 7d 7f 82 85 87 8a 8c 8f 91 94 96 " ++
    "99 9c 9e a1 a3 a6 a8 ab ad b0 b3 b5 b8 ba bd bf c2 c4 c7 c9 cc cf d1 d4 d6 d9 db de e0 e3 " ++
    "e5 e8 eb ed f0 f2 f5 f7 fa fc ff"

/-- The shades of a colour, numbered from `first`. -/
def shadesOf (name : String) (first : Nat) (shades : List String) : List (String × String) :=
  shades.mapIdx fun i shade => (name ++ toString (first + i), "#" ++ shade)

def namedColours : List (String × String) :=
  colourShades.flatMap fun (name, colours) =>
    let colours := colours.splitOn " "
    let greys := if ["gray", "grey"].contains name then greyParts.splitOn " " else []
    (name, "#" ++ colours.headD "") ::
      (shadesOf name 1 colours.tail ++ shadesOf name 0 (greys.map fun part => part ++ part ++ part))


def ofName? (name : String) : Option String :=
  namedColours.lookup (Text.toLower name)

/-- The last name of a colour, written in any case. -/
def nameOf? (colour : String) : Option String :=
  let colour := Text.toLower colour
  (namedColours.reverse.find? (·.2 == colour)).map (·.1)

end VhdlWorkbench.Colour
