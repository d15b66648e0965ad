import TagMachine.Text.Tables.GeneralCategory

set_option autoImplicit false

/-! # Binary properties

The code points with each of a number of binary properties of the Unicode character database, in
the notation of the general categories. The derived properties are put together as the database
defines them: from general categories and from the code points that are listed besides.
-/

namespace TagMachine.Text.Tables

def lowercase : List String :=
  categoryLl ++
    ["Eq0g0Ny881v4Cp0Bh0DS20DIoBqe0zB0T60e0hcFwfXlpCBv1BHKf1Fv0Dm241Y33a0ZEv0322B528CHFaBp"]

def uppercase : List String := categoryLu ++ ["JDcfXbpEVXtp7p7p"]

def cased : List String := lowercase ++ uppercase ++ categoryLt

def alphabetic : List String :=
  cased ++ categoryLm ++ categoryLo ++ categoryNl ++ alphabeticMn ++ alphabeticMc

def caseIgnorable : List String :=
  categoryMn ++ categoryMe ++ categoryCf ++ categoryLm ++ categorySk ++
    ["B3070c0Dh0U00N40E50HDw1b030CIS40Br030Ey070c0"]

def whiteSpace : List String := ["94j0Ct0r0FZk0CPkau160Bc0EH50"]

def asciiHexDigit : List String := ["Bc985r5"]

def hexDigit : List String := asciiHexDigit ++ ["CRTs985r5"]

def dash : List String := categoryPd ++ ["IVv0B40g0Kv0"]

def diacritic : List String :=
  ["Cm020C00705031O0Ee2765i150a1H24Fu0Bkg2q202120Dr751Dr15142BwqCkaBnaz1Dj7B69hrBq0h043t0C30h0",
   "CUs0h0D30h0Bc2Bp0h080Dc0D30h0D30h0D21h0Dh0Dh520D00e4C41=s451Bv221Br0D5021B5154q620b1Tm2BAd1",
   "GN5aa0Jo2Iq730Bde3aCx0g0B38Bj1Dv1Bt5Cbo507032BfBqCibB2aMe022c2e2e2e1DO12Iu0O35Cy3Co0BGD70d1",
   "BTNz0t1Cb1fxCv2D21Fn0shBm3B10Co0d0B10E62Bu3Bg0Ct4a2Dl1VR50VefHj020Bc0Ba1Bw0V90BGw52B528Wj1",
   "CVPu5N22BzaBe3Fd0B60C11Dd1Br0C50a2Cx1Ez1Ca0h0p644Fq040Dg1H01Dj0Db1D80Hi1H7150Ed0Cc0j0Ca0Lq0",
   "DAAi021Ca0GFceOYb4Bo6BExgC91RN332621IMiB93mP52459736v3DZ7BpFf6Kg0Bq3BPt6D2222"]

def emojiPresentation : List String :=
  ["JPm1Fq34030Oi1m1BfbB80k0e091i1619060m0812050308051t0B00205220Bq2p0f0Xw1Bg050ETV30Fn0Fb039C4p",
   "FGFd0p0l03422m1Evwd82Bx2ldB654dg404By202F63Bqe32nj0r1e0CfCcBdBx70423253c188Gcb50HwBa292F4D5c",
   "FINs88B9269d5888"]

def emoji : List String :=
  emojiPresentation ++
    ["z07069D4050IQe0d0G10n0Cj5g1Km0En0u22162Fk0Gg1b0a0Bn144a03070503021304041926020t1302120j030",
     "KOa0232021407091n0=74m071303290613120=347040i1g030s1Bp0L71Mw2BKp0d0Qq020ESFj1d1Dn0Bh0Gi038",
     "FGNy0Bz0p12231B836b=k4C0020F80C41B1136e03330l03091a062d292302050704070Ft022h5407030"]

def extendedPictographic : List String :=
  ["Ep050IQe0d0G10n0Cj5g1K81d0Co0Bz0qa52Fk0Gg1b0a0Bn3252b2D5bD939=14704070b1g03050205220c4Ba2a0",
   "KW80f0Kd1Mw2k1Bg050BIj0d0Qq020ERVbH3e2w0Bp5d1f039jBkseb0l03823aM16It9HdBdDjD9bCeB6d3Bl7b5B57",
   "FIAuC9dBa292M8H5BCd"]

def unifiedIdeograph : List String :=
  ["OFsHB3BtWL3YQf12021b0202132CTPzBTQnxELd7G53GE1fHZkFN4FH66EMf"]

def ideographic : List String :=
  unifiedIdeograph ++
    ["NDi1q8f2CCXqHh302038=14314Bv3CxBGAb0sGOf9BIdB78JYwKzDKX9P1"]

def xidStart : List String :=
  categoryLu ++ categoryLl ++ categoryLt ++ categoryNl ++ identifierLm ++ identifierLo ++
    ["GSd1CIy0m0"]

def idStart : List String := xidStart ++ unstableLo ++ ["Yq0MIx1CEQ21"]

def xidContinue : List String :=
  xidStart ++ categoryMn ++ categoryMc ++ categoryNd ++ categoryPc ++
    ["F30U00CXw0Dk0BHi8BTl0CKVw1"]

def idContinue : List String := idStart ++ xidContinue

def joinControl : List String := ["ITw1"]

def math : List String :=
  categorySm ++
    ["Cm0Yi230r131HS10s2c0x3p1f1Buc504154j05039204470413122254364C44332121202431515h3120262071",
     "JP43Ep120p0i0Me1d864613144f02035p1Bm020u3a1Jj1w9L8lBs3x1CGCc02050Fw020CGEyCc2By213031332b",
     "EYF70262Bs2337262r232420462Jf3o2o2u2o2u2o2u2o2u2o273BdGAh32q2120302922=1470=54222120=3821",
     "FFFo03326232320292g62242g"]

def quotationMark : List String := ["y050Do0g0IP17q1DVs0Mq3e2CEJu3Fa050Cj1"]

def terminalPunctuation : List String :=
  ["x0b020c140X3090Oa0Bm0C10f022F10B8a20Gk1Bjew0Ha1BJ91Et055Io1Vy7Vi0Dh2C01Ee240B4331Ir1Jv3Ev122",
   "HNh1F94Br1BAl1a2DUt0e050b02141Lx1BFZw1Hi2Gc4Kn1Cf1Co0E82E42Dk0h1Gy0WNx223Eq0b020c140Bu030",
   "CTA70Bd0BG70Fk0In1E95Bx5Ci3BAh4B93Fa6D53Dk2Dm170h1Ch4D10Lm2d1Jz34eCy1Gy2Oe020H01Cg151Lj2Ba0",
   "DAMn1C31BKs4TDm1Dq0Bu2b0Xn1VIv0IEo3"]

def defaultIgnorableCodePoint : List String :=
  ["Et0Sq0Tx0DC31BT01Ce4CEs4r4BefEQl0CDZ0fGo0Eh0C88BZPk3FS07BGUY6EJr"]

def noncharacterCodePoint : List String :=
  ["CRKwvOn1CSAf1CSAf1CSAf1CSAf1CSAf1CSAf1CSAf1CSAf1CSAf1CSAf1CSAf1CSAf1CSAf1CSAf1CSAf1CSAf1"]

def variationSelector : List String := ["GOz220CKX5fBJBApGn"]

def regionalIndicator : List String := ["FGEmp"]

def patternWhiteSpace : List String := ["94j0Ct0IQ91p1"]

def graphemeExtend : List String :=
  categoryMn ++ categoryMe ++
    ["CRa0p0Jz0p0Cv0p0Gj0j1Cw0p0Dc0g0DQu0BIf0EKq1CET31FJj0p0Jl0d0Gq0Yx0BYJx094BGUZaCn"]

/-- The properties by their names. -/
def properties : List (List String × List String) :=
  [(["alphabetic", "alpha"], alphabetic),
   (["lowercase", "lower"], lowercase),
   (["uppercase", "upper"], uppercase),
   (["cased"], cased),
   (["caseignorable", "ci"], caseIgnorable),
   (["whitespace", "wspace", "space"], whiteSpace),
   (["asciihexdigit", "ahex"], asciiHexDigit),
   (["hexdigit", "hex"], hexDigit),
   (["dash"], dash),
   (["diacritic", "dia"], diacritic),
   (["emoji"], emoji),
   (["emojipresentation", "epres"], emojiPresentation),
   (["extendedpictographic", "extpict"], extendedPictographic),
   (["ideographic", "ideo"], ideographic),
   (["idstart", "ids"], idStart),
   (["idcontinue", "idc"], idContinue),
   (["joincontrol", "joinc"], joinControl),
   (["math"], math),
   (["quotationmark", "qmark"], quotationMark),
   (["terminalpunctuation", "term"], terminalPunctuation),
   (["xidstart", "xids"], xidStart),
   (["xidcontinue", "xidc"], xidContinue),
   (["defaultignorablecodepoint", "di"], defaultIgnorableCodePoint),
   (["noncharactercodepoint", "nchar"], noncharacterCodePoint),
   (["variationselector", "vs"], variationSelector),
   (["regionalindicator", "ri"], regionalIndicator),
   (["patternwhitespace", "patws"], patternWhiteSpace),
   (["graphemeextend", "grext"], graphemeExtend),
   (["unifiedideograph", "uideo"], unifiedIdeograph)]

end TagMachine.Text.Tables
