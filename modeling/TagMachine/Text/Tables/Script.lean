set_option autoImplicit false

/-! # Scripts

The code points of each script of the Unicode character database by the names of the script, in
the notation of the general categories.
-/

namespace TagMachine.Text.Tables

/-- The scripts by their names. -/
def scripts : List (List String × List String) :=
  [(["adlam", "adlm"], ["FDTcC35951"]),
   (["ahom"], ["CYI0q3e5m"]),
   (["anatolianhieroglyphs", "hluw"], ["DKQ0Q6"]),
   (["arabic", "arab"],
    ["BQo4252d222v29cp2Cz2xC9BbGpu217C12sCOH5D6hK23C73Bh80xfD542DqEFguDj2CIZt32q2120302922=1470",
     "=FFEv4222120=3821203326232320292g62242gBh1"]),
   (["armenian", "armn"], ["BKxB13Bd32CPDw4"]),
   (["avestan", "avst"], ["CVAoBh46"]),
   (["balinese", "bali"], ["HK0C44Ba"]),
   (["bamum", "bamu"], ["BTOwCfCAUpPs"]),
   (["bassavah", "bass"], ["DVG0t35"]),
   (["batak", "batk"], ["HPcBf93"]),
   (["bengali", "beng"], ["CPk327313l2620433831339051243o"]),
   (["bhaiksuki", "bhks"], ["CZRk82B82dbs"]),
   (["bopomofo", "bopo"], ["Uq1MPuB6D5v"]),
   (["brahmi", "brah"], ["CWK8C55za0"]),
   (["braille", "brai"], ["KYgH3"]),
   (["buginese", "bugi"], ["HCwr31"]),
   (["buhid", "buhd"], ["GJcj"]),
   (["canadianaboriginal", "cans"], ["FM8RrPlBxCSMrf"]),
   (["carian", "cari"], ["CST4Bc"]),
   (["caucasianalbanian", "aghb"], ["CTLcBfc0"]),
   (["chakma", "cakm"], ["CWRcBg2h"]),
   (["cham"], ["BUMwBiad3933"]),
   (["cherokee", "cher"], ["FJkCd35BPKzC7"]),
   (["chorasmian", "chrs"], ["CWI0r"]),
   (["common", "zyyy"],
    ["0Bsr5rBa2e24o0w0MiB2643jD90a07020Rq070f040x0Ed0Od0Dm1BIi0La3I30BQ82C01Fo120BI60e083252230",
     "ITkb3Ce2a4a2eiwBsB122352q2gB625SeqamZrH5Rf3v2CwO9ClL7b54202og753Ck140Cj1E4fxzBpBrwC8Bc0",
     "OB4EnHB5BrYIxxCv2Em9Gt0Eh0L00f1WJv1Ft9ny2i23E402vr5rab0Ba1Bt626b4H725B848C9cBgB8GdqBYU53",
     "EWSoD7BpGtbB23Bp4g918t5BoFyjdjdCeaoDsCc2By213031332b20262Bs2337262r232420462Jf3I33BdFPeBv",
     "FEVtBoTnB75Crde3e2e2B0bEtBlp21eB75881f5EbBBb5g4c4Da5Cm7b50gb5Bj997B39t31C7Jfdd3c488B9269d",
     "FIQg8888E22BiB29BGJI00vCn"]),
   (["coptic", "copt", "qaac"], ["BBmdLChD766"]),
   (["cuneiform", "xsux"], ["DAU0ZlCvD224cFf"]),
   (["cypriot", "cprt"], ["CUFc5302B7214030"]),
   (["cyprominoan", "cpmn"], ["DFAoCq"]),
   (["cyrillic", "cyrl"], ["BCgDo3EoGJt8Ej0C50EMovBGX5CnXYn1CJV5Bpy0"]),
   (["deseret", "dsrt"], ["CTCwC7"]),
   (["devanagari", "deva"], ["CM0C85e3pBRPdvBFEp9"]),
   (["divesakuru", "diak"], ["CYW863037212t213ba9"]),
   (["dogra", "dogr"], ["CYP4Bn"]),
   (["duployan", "dupl"], ["ERLcCy6c488933"]),
   (["egyptianhieroglyphs", "egyp"], ["DFDsBEt"]),
   (["elbasan", "elba"], ["CTK0B3"]),
   (["elymaic", "elym"], ["CWJcm"]),
   (["ethiopic", "ethi"],
    ["EY0C0233620233B4233w233620233e2Bk233Bu3v4pHC7ma626262626262626BIFv53535a626DIQ2623212e"]),
   (["georgian", "geor"], ["EO8B120603B623DE9B632ELlB12060"]),
   (["glagolitic", "glag"], ["MAwCnEPDt62g362124"]),
   (["gothic", "goth"], ["CSX4q"]),
   (["grantha", "gran"], ["CXFk327313l2621243831323070663644"]),
   (["greek", "grek"],
    ["Yg3223320502022202j2BqffGWv4Bf454Cd0Ixl353B13536=162u3Bg2e2d352i3228I80BLV30XMjC6i0CEZsBx"]),
   (["gujarati", "gujr"], ["CWp228222l26212439222230g33b86"]),
   (["gunjalagondi", "gong"], ["DABc5212B0212589"]),
   (["gurmukhi", "guru"], ["CT5225513l26212121302451324083208g"]),
   (["han", "hani"],
    ["MSop2CgdFxBc020q8f3BAtHB3BtWL3YIxK53CxBGA91d1BNKfBTQnxELd7G53GE1fHZkDI8P1BPvFH66EMf"]),
   (["hangul", "hang"],
    ["EQwH3IGn1H6ClD6uBuuBGNesRwLYbdm5BcKVxu45353532"]),
   (["hanifirohingya", "rohg"], ["CVOwB399"]),
   (["hanunoo", "hano"], ["GIgk"]),
   (["hatran", "hatr"], ["CULki2164"]),
   (["hebrew", "hebr"], ["BNlBi9q55CPBdp2420212129"]),
   (["hiragana", "hira"], ["NF5Cd72EAWaHyj0u2RRy0"]),
   (["imperialaramaic", "armi"], ["CUH4l28"]),
   (["inherited", "zinh", "qaai"],
    ["VcD3Hq1Mlar0Uh3ETguOa22c26507041FjBrOl1FfwEEa3D01CEEmfhdBB40Gb0EMb0BZJ9B93mP52i736v3",
     "BLSNcGn"]),
   (["inscriptionalpahlavi", "phli"], ["CVDci67"]),
   (["inscriptionalparthian", "prti"], ["CVCgl37"]),
   (["javanese", "java"], ["BUJcC53951"]),
   (["kaithi", "kthi"], ["CWNsBub0"]),
   (["kannada", "knda"], ["DKwc222m29243822238171233922"]),
   (["katakana", "kana"],
    ["NHtCh32GpfFtBa2CfCDV392B8BWFv3262120I02Bf0f3"]),
   (["kawi"], ["DAMwg2B44r"]),
   (["kayahli", "kali"], ["BUFsB920"]),
   (["kharoshthi", "khar"], ["CUTk32167222s325988"]),
   (["khitansmallscript", "kits"], ["DWQ40HKsN1"]),
   (["khmer", "khmr"], ["GL4Cl3979Njv"]),
   (["khojki", "khoj"], ["CWYgh2Ba"]),
   (["khudawadi", "sind"], ["CXDcBm69"]),
   (["lao", "laoo"], ["DZ5120242n202m3420262933"]),
   (["latin", "latn"],
    ["Btp7pBc0g06m2u2MgB44HDoB17Bc636c2BxBuH3Ka0e0hcDy170s0iB4CZ4vBHO3Ct4Br612024pdWpB62823VTz6",
     "CRU9p7pCFy52B528CGWuu75"]),
   (["lepcha", "lepc"], ["HR4Bj4e42"]),
   (["limbu", "limb"], ["GVsu2b5b504b"]),
   (["lineara", "lina"], ["CTR4Imalb7"]),
   (["linearb", "linb"], ["CSAgb2p2i212e3dzDe"]),
   (["lisu"], ["BTC0BbBHOh0"]),
   (["lycian", "lyci"], ["CSS8s"]),
   (["lydian", "lydi"], ["CUNcp60"]),
   (["mahajani", "mahj"], ["CWTkB2"]),
   (["makasar", "maka"], ["DAM0o"]),
   (["malayalam", "mlym"], ["DOgc222Be22255f3p"]),
   (["mandaic", "mand"], ["CGor30"]),
   (["manichaean", "mani"], ["CUYwB25b"]),
   (["marchen", "marc"], ["CZUov3l2d"]),
   (["masaramgondi", "gonm"], ["CZYo6212B740212899"]),
   (["medefaidrin", "medf"], ["DWEgCi"]),
   (["meeteimayek", "mtei"], ["BUT4mFmB939"]),
   (["mendekikakui", "mend"], ["FDM8Fg3f"]),
   (["meroiticcursive", "merc"], ["CUQwn5j3B9"]),
   (["meroitichieroglyphs", "mero"], ["CUQ0v"]),
   (["miao", "plrd"], ["DWJsC25Bk8g"]),
   (["modi"], ["CYAwBwc9"]),
   (["mongolian", "mong"], ["GOo1302j7Cg8B6CRK6c"]),
   (["mro", "mroo"], ["DVC0u2951"]),
   (["multani", "mult"], ["CXC0620232e2a"]),
   (["myanmar", "mymr"], ["EJsEfBPXtuCqv"]),
   (["nabataean", "nbat"], ["CUIwu98"]),
   (["nagmundari", "nagm"], ["FCPkB5"]),
   (["nandinagari", "nand"], ["CZAo73B93a"]),
   (["newtailue", "talu"], ["GZcB75p7a41"]),
   (["newa"], ["CXMoCj24"]),
   (["nko", "nkoo"], ["CD4Bm32"]),
   (["nushu", "nshu"], ["DWQ10RY7Kz"]),
   (["nyiakengpuachuehmong", "hmnp"], ["FBOgB84d3951"]),
   (["ogham", "ogam"], ["GE0s"]),
   (["olchiki", "olck"], ["HTcBb"]),
   (["oldhungarian", "hung"], ["CVLcBeeBe85"]),
   (["olditalic", "ital"], ["CSVsza2"]),
   (["oldnortharabian", "narb"], ["CUX4v"]),
   (["oldpermic", "perm"], ["CSY0B6"]),
   (["oldpersian", "xpeo"], ["CTA8z5d"]),
   (["oldsogdian", "sogo"], ["CWD4B3"]),
   (["oldsoutharabian", "sarb"], ["CUW8v"]),
   (["oldturkic", "orkh"], ["CVHsC0"]),
   (["olduyghur", "ougr"], ["CWG8p"]),
   (["oriya", "orya"], ["DA9227313l2621243831328251243h"]),
   (["osage", "osge"], ["CTHsz5z"]),
   (["osmanya", "osma"], ["CTGgt39"]),
   (["pahawhhmong", "hmng"], ["DVHcBxb9262k6i"]),
   (["palmyrene", "palm"], ["CUI0v"]),
   (["paucinhau", "pauc"], ["CZIoBk"]),
   (["phagspa", "phag"], ["BUAgBj"]),
   (["phoenician", "phnx"], ["CUMgr40"]),
   (["psalterpahlavi", "phlp"], ["CVE8h83d6"]),
   (["rejang", "rjng"], ["BUH4zc0"]),
   (["runic", "runr"], ["GEwC24a"]),
   (["samaritan", "samr"], ["CEwB93e"]),
   (["saurashtra", "saur"], ["BUC8Bx9b"]),
   (["sharada", "shrd"], ["CWUwCn"]),
   (["shavian", "shaw"], ["CTF4Bb"]),
   (["siddham", "sidd"], ["CXXcBh3B1"]),
   (["signwriting", "sgnw"], ["EZCgS3g42e"]),
   (["sinhala", "sinh"], ["DS122h4n282036405520277932CTCdj"]),
   (["sogdian", "sogd"], ["CWEgB5"]),
   (["sorasompeng", "sora"], ["CWQ0o89"]),
   (["soyombo", "soyo"], ["CZFkCa"]),
   (["sundanese", "sund"], ["HNkBrH57"]),
   (["sylotinagri", "sylo"], ["BTYoB8"]),
   (["syriac", "syrc"], ["BXsd2Bn32Hla"]),
   (["tagalog", "tglg"], ["GHkla0"]),
   (["tagbanwa", "tagb"], ["GK8c2221"]),
   (["taile", "tale"], ["GY0t34"]),
   (["taitham", "lana"], ["HDsBq2s3a797d"]),
   (["taiviet", "tavt"], ["BUQgBup4"]),
   (["takri", "takr"], ["CYEgBl79"]),
   (["tamil", "taml"],
    ["DDu125422341202141424b5442233070fkCXL2Bde0"]),
   (["tangsa", "tnsa"], ["DVDcC629"]),
   (["tangut", "tang"], ["DWQ00wGOf9VbO98"]),
   (["telugu", "telu"], ["DHcc222m2f382223812230333988"]),
   (["thaana", "thaa"], ["CBcBd"]),
   (["thai"], ["DVlBl6r"]),
   (["tibetan", "tibt"], ["ECoBz2z5B22z2e2651"]),
   (["tifinagh", "tfng"], ["MJcBj81f0"]),
   (["tirhuta", "tirh"], ["CXQ8Bz99"]),
   (["toto"], ["FBZku"]),
   (["ugaritic", "ugar"], ["CSZct20"]),
   (["vai", "vaii"], ["BTDcIb"]),
   (["vithkuqi", "vith"], ["CTN4a2e26212a2e2621"]),
   (["wancho", "wcho"], ["FCAwBl60"]),
   (["warangciti", "wara"], ["CYTkCad0"]),
   (["yezidi", "yezi"], ["CVZkB52231"]),
   (["yi", "yiii"], ["BRTsBGc4Bi"]),
   (["zanabazarsquare", "zanb"], ["CZDcBz"])]

end TagMachine.Text.Tables
