set_option autoImplicit false

/-! # General categories

The code points of each general category of the Unicode character database. A line is a row of
ranges by distances and lengths, as `CharSet.readRanges` reads them. The unassigned code points are
those in none of the categories.
-/

namespace TagMachine.Text.Tables

/-- Uppercase Letter. -/
def categoryLu : List String :=
  ["BtpCum26=yBi=3e=3B820=14412021223321224120=142120302122202140803030=3e=3g303021=1Bm81213022",
   "=Q68I20204090702220212g28B0032=4m6030213Be=Bdw=aBg20=1c=3Cm3B1DCaB12060U3CdCJ7B632=IxE4=aCo",
   "IMo795b79795=c697C13d3d3d4c3Hb05042323044=742333b160Bq0CWlBbBd022=3423203091=1Cq902050",
   "=BTM8B8=kq=Dsc=4Bob02020=1850203020=4i2423=1e2320706020t0XVwpBHyB3DtzEda2e2621BX7BeDGuvXK1v",
   "EYA0prprpr02130313327rpr1233726s123242046sprprprprprpvoyoyoyoyoy0ESex"]

/-- Lowercase Letter. -/
def categoryLl : List String :=
  ["CppBn0B6n26=1Bi20=1e20=1Ba3020223020304150304230=3430212030402031327030=3e20=1g213020=4Bk26",
   "Pw03120=562Bw2qFe0204042j0sy2141=1m24203031BgBa=1y=aBg=3a20=1CoBdB4DC8B632V55CIj8DcB7Bsc2x",
   "=IFdE227=1Co2895b79795b7979d3797979421704221933197b221Hn04140s05050319350Bi0CXwBb2040=165021",
   "ME65=6Co21802050dB12060=BHD0B8=kq=Dsa21=1Bq26=14=3850203021=1k60=6e5020=78t040WuB6688C7VRl6",
   "CQRf4BDmpBI6B3DtzEca2e2621BXwBeDFyvXK1vBBUjpr62hrpr320262arprprprprprprprprrto25ro25ro25ro25",
   "EZA2o2520BZ992j75CSwx"]

/-- Titlecase Letter. -/
def categoryLt : List String := ["Ml03030B30ICe79797d0g0Bc0"]

/-- The modifier letters that start an identifier in every normal form. -/
def identifierLm : List String :=
  ["T4h5bf48020Dq0Nh0Gf0El1Hi150w0a040Eh0Eo0BId0Dk0Pq0BWr0D00R00Mx5EvBqe0zB0T60e0hcDGg1Gq0Se0B84",
   "NEz0Cq1Cm2BEJz0BIr5Hj0D70t1De8C90o0Cy241N20n0Du0D10m1Cw3a0WZj0CFc52B528BBFq3BEocBt120RNh326",
   "EODx1NEqBpFm6BA60BF40"]

/-- Modifier Letter. -/
def categoryLm : List String := identifierLm ++ ["Yq0LRp0CFHb1"]

/-- The other letters that start an identifier in every normal form. -/
def identifierLo : List String :=
  ["Eq0g0H5053Ft0X0q53Bav29B012Cq20p1b230h02tuCgc0pwmlB7o8a6n25iB4BoBh40j089he57313l26204340h0e1",
   "CS72f1b095513l26212121w320k2h8222l26212440j0g1o0c7313l26212440v122g0i025422341202141424bn0",
   "DHh7222m2f40r23031v057222m292440w121g1i8222B430h06292p56h4n282036BnBb20e5Bo120242n202920b034",
   "EBo3x0Bs72zs4D8B6l0h5534041825cd0D6J4233620233B4233w233620233e2Bk233BuB2fD6R73g2p6C2778heifh",
   "GK8c22gBfB50Bwy2Bg843x206BxbuBet34cB75pBjmaBgExBai7Bjte1bB7rzB62btD63252140BE33DH4Bjpma62626",
   "MN4626262626Pc0Bi05Cd902Ch506B62ClivBdfO9HB3BtWLo2BFqBwB39Hf5fb1Bv0BeBxEq0Cw04622232muBffBd",
   "BUFe54021crbmqs8BaBa438b42B4o227lf25404Bd2041343020p14a80f53535a626E2yuLYbdm5BcJAtK53CxBw029",
   "CQS2c242021212CzyDu7G1jBr3BhB59Dc020=462DhCy92B83u45353532B0b2p2i212e3dzDeKus4BcBcvej277B1bt",
   "CTA8z57DlC5CrB39BfEdImalb7E95302B721403mbmauBui21blbpBzBj71Bt0g3222sB7s4sB072rsBhblbiehD3C0",
   "CVOwzJpB571C7sb09lB7hBbksmdBgBm130eB8xorzu0309y40dBbf3m020B0h2ok1Bs620232e298BaB37313l262124",
   "CXH90j0d4EfBgj3l2vBbl120F5BaB63B1Bbl0BoB6e0C0qB26F6B7Fw73037212ng020Cn73B2h020t0bB380m0cB9k0",
   "CZI8C0Hc82B0i0BetD56212B1m0q5212vf0J4ig02c2xDh0C8ZlGfFfCV9CogBDri5EHuQ6JFuPs8uiC6itjBbBgk6i",
   "DWJsC260EwGOf9BIdB78JOoI2g0u230f39KzCM5Cy6c4889JKx0NyB8y0IytjB7NhqV2623212e2FgBL832q21203029",
   "FFEc2=1470=54222120=3821203326232320292g62242gEStBTQnxELd7G53GE1fHZkDI8P1BPvFH66EMf"]

/-- The other letters with a normal form that starts no identifier. -/
def unstableLo : List String := ["DWz0Dk0CNA35Lb1=D9e"]

/-- Other Letter. -/
def categoryLo : List String := identifierLo ++ unstableLo

/-- The nonspacing marks that count as letters. -/
def alphabeticMn : List String :=
  ["X90R7d20212120C1aBdc26h0Cu6533150B00vfCvaCu1482223Eob467iBk077d2b1u0Bs3u1u1Br1513150v140c1",
   "CYh421q1n250Bq023i0c1v0Bq0Bs040Bm2622291c1u0Bq07060m1t1Bs3u1u0C9220Cj036j0Cs03521h0Ekd23aa2z",
   "EL132471q152h3e03170g0BTx1v1v1v1Bw690Fb1z0Db251a0Gd130Bn026403771C31c2Be3Bf42060Bq1x33131Bn1",
   "HQl022Bn730M1dEJ8vBGYl7z1Jv090q1Ef0Bm0B34taBb2Bg331B40Bw53131d090Bc0Bg0223160Ba1Gw030VRa0",
   "CSZ24BUf22163Vx3Ks1Jh0BjdBa1c1Be3c0Bq2B1425C61Bh8h0Co230307030Ee045o1Br0Gw741D352051Gq371v1",
   "CYCb73030Cz02035Cw23323H98H81E8331B29B7333j532BbcLe625Cdl362121Df54021222040C1140Jq1c1Bh460",
   "DWLz0Bs3VBw0JRm62g362124Ct0CK00"]

/-- Nonspacing Mark. -/
def categoryMn : List String :=
  alphabeticMn ++
    ["VcBw2B5Ho4HeuEp0Dr1a2CcaEh8a0r1k0B82Bp7B79d195C50h043Cw0h0Bd0Bq0h0D30h0Bc2Bp0h080Dc0D30h0",
     "DMk0h0D21h0Dh0Dh520D00e420C21=s4C3021Br0D5021Wb2BAd0Eg1kaa0Ba220Ia2I50l730Bdd4aCx0Bj8Bk0",
     "HQe0C90E922c26507041FjB2faU1c504bDHb2Dy0Sz3D01BGFx0d1D71Hp0B20E80shBm2Dq0Hg020Bh0Gv0WLnfhf",
     "CSOl0Gb0CA8250Em1BD32BzaBe3Fd0B60f0Bm1Dd1Br0Ce3Cy0Ez1C91B6644Fq040o0Cs1H01Dj0Dc0D80Hi1H80",
     "CYY30Ed0Cb1j0C91Lq0H7021Ca0Lv0FTa07eOYb4Bo6BHa0UZl0FArB93mP52i736v3E52CD0Bi5Bd90f0n42eBU96",
     "FCAe0Bq3O53BBl6D2222BGORyGn"]

/-- The spacing marks that count as letters. -/
def alphabeticMc : List String :=
  ["CM30Bk0329321Bf1Bn27131b0B80Bn2Bv0Bn29021Bi1Bn0207131b0Cv1214222b0B62Bq3Bq1Bn0243121a1t0f1",
   "DQ626222b0B71C4277j1L00Es1507031q1b236m13530b2BYi08721Jn3325125G91Bn020a02195E20Bd0602420Br0",
   "HOh051Bs03220Bi791BMH2130Ch1BffDz0Bd0Bd15131D4131p0Ba020D203160Gm12121BBJq020Dk0Ba251D80p1",
   "CWUy0Bd2a0f0Cm241Et2w1Bn1233131b0b1Fu29140Cz2702330Gm27330D629120D2021D5150Ha2a0Gw5218020Dz2",
   "CZCc350Cd0u1Br0Lc0f0Cz08030Fy45120Jr1d0Bd191VXeBiCx1"]

/-- Spacing Mark. -/
def categoryMc : List String :=
  alphabeticMc ++
    ["EEe1CDq0v0BCw0Cu0C01Gm0m0FGn1BHDg0D10Pg0BBW40D90Hs0Y90Rz0BQs0BWSs175"]

/-- Enclosing Mark. -/
def categoryMe : List String := ["BG81GBx0BRj322BKNo2"]

/-- Decimal Number. -/
def categoryNd : List String :=
  ["Bc9BRr9Dr9Fj9Lh9Db9Db9Db9Db9Db9Db9Db9Db9Db9Cp9Db9Bz9Hr9Bz9BZr9B39Id9Dl9En979F39Cf9Dr979BLRr9",
   "BUEg9B39Fj9n9Cf9Lb9WSv9BNb9CIn9Wl9Dl9Bp9E19Hr9Jj9Db9Kf9Cv9Cv9Lr9Cv9V39Gv9Bz9Lr9UNj9Cf9Dr9",
   "EZB2BdCNt9Lr9Nz9BEv9FC79"]

/-- Letter Number. -/
def categoryNl : List String :=
  ["GH22CW8y33DZ30q8f2BGLw9YS9BgMt090Dr4IUrD2"]

/-- Other Number. -/
def categoryNo : List String :=
  ["Ey16032CNi5Kh5Dd2Dq6G26i8M29BDyjBFo9Nd0BUu04579FjfB60U7BnC7lRjtBMi0BGl3Dv9v72ex9B4eBGD55",
   "CSHrB8Bu3i1JiqB13BL17q6B48C44n5Eh13f3B9Bt8Bh1v2C44Cx7p7B66J75JtuEf9B73D56DrjKkjBLi1Lz8Y8iXok",
   "DVJv6W7mBBKajdjD1oFVj8ZuBm2223C5B82eBArc"]

/-- Connector Punctuation. -/
def categoryPc : List String := ["Cn0ISo1k0CIRr1p2Go0"]

/-- Dash Punctuation. -/
def categoryPd : List String :=
  ["B90BM50Bg0DXe0BCm0CF65DVm030w150t0Mf0k0D40CEFt1B20b0Eq0EH40"]

/-- Open Punctuation. -/
def categoryPs : List String :=
  ["B40Bf0w0EAv020CAf0CPj040B30Bk0g0Rn020v0=BE7cC90=x8=L9kBt020y0=BDi6q0=j6=Lx8=4630CECq0G00=ue",
   "CRO70=i4Er0Bf0w04030"]

/-- Close Punctuation. -/
def categoryPe : List String :=
  ["B50Bg0w0EAu020CAf0CQq0Bk0g0Rn020v0=BE7cC90=x8=L9kBt020y0=BDi6=B96=Lx8=4631CECn0G20=ue40=i4",
   "CRTl0Bg0w03030"]

/-- Initial Punctuation. -/
def categoryPi : List String := ["Er0IPh03130q0DU10205030g040"]

/-- Final Punctuation. -/
def categoryPf : List String := ["F70IP2040t0DU10205030g040"]

/-- Other Punctuation. -/
def categoryPo : List String :=
  ["x222302021b141s0Bx060f180Tj090Mz5B60Bj03030B91l121e022C33Cv0B8dGi2Bjew0Ha1b0Dx0Dd0De0Kv0d0",
   "DV80Cj0b1Epe20D50C3451D45Es0R18Vi0Dh2C01Ee222B2523Iq1G11Dl625Et6t1Di3Bo4Br1Bt7c0X7197983332",
   "IVja2029DLn321D50E01523038212031b42933202c32Lx2Bm0Fa0BFSz1Hi2Cs0b0D85Kl3Cf1B5220Be1Bc0Cqch1",
   "BUPg3Dj1h1Gy0WM5630n0l1334223827021E6222302021b141s0B1031Lf2Sl0Bd0Lj0Uo0Fk0w0Hl8B30D56Bv6Ci3",
   "CWFh4B93Fa6D2123Dj3Bd1C8350e022Ch5D00Lm4b120Cx0GzmCy2tcC50Dn2H10Hd2Ec0Cl7Cc224Cm9Io4B71Ry1",
   "DAOrcEw0BFl4DDp1PZw1Dq0Bu490Xn3J40UZp0IEo4EBf1"]

/-- Math Symbol. -/
def categorySm : List String :=
  ["B70h2Bq020Ba050B20w0Vb0Oo2HEk0e0B42e2Dw0B4470Bx46150303080w13020wHfx1Cj0voB55N20a0Bj7D40Jd4",
   "KWvubfH5DmnBq5v3H5Bdk35CEW50Wx022El0h2Bq020Do073CGTp0q0w0q0w0q0w0q0w0q0GIt1"]

/-- Currency Symbol. -/
def categorySc : List String :=
  ["B00Di3BIy0Dg0Nv1Nv180Gu0Hc0Q60CQc0CKdwBLBc0XLw0D10Eb0G4141ITb3CBJj0CQx0"]

/-- Modifier Symbol. -/
def categorySk : List String :=
  ["Cm020C00705040Oi3dd66202gDa0f1BJn0GJ1022c2e2e2e1EO51BGJwma1Cw1BB50f1VYvgYs020Ej0COTs4"]

/-- Other Symbol. -/
def categorySo : List String :=
  ["Em0305020BB60Hf1Dk1Fr0b0k1Gw0Oc0Ke0Dn520Dp0Fs0B60Kw2g02235=l4Dq7252163Fi1Ux9U40U30EexJu9a8",
   "JAo12321b02174=1650c1f02120Bn1a4332121262u31202uHh75j363C82tqB37BwqaCaC5nF2282Bh9D22GvB9B7",
   "KYgH3O9Bbm17B23v2CwGe5Jy1Bbp2CgdFxrb90e1d0m171Jd159xztuct90gvbB2gIvHB5BrXRlBiY23b120Py2WQnf",
   "CRKv0Ba2Nh04051e1Iq8Bmg322c40BcB8BU31Qg0DKn0CJ275gUPf360WGf0FD0D7BpGtbB23Bn62n18t5BomBt40",
   "EXSwCeBH6O7Bk3Bf72d21BW90DCt0Dm0U2B75Crde3e2e2B0oEgBlseB75881f5EbGy6U75g4c4Da5Cm7b50gb5Bj99",
   "FHYoB39t31C7Jfdd3c488B9269d58888E22Bi"]

/-- Space Separator. -/
def categoryZs : List String := ["w0Dk0FZk0CPkaB10Bc0EH50"]

/-- Line Separator. -/
def categoryZl : List String := ["IUo0"]

/-- Paragraph Separator. -/
def categoryZp : List String := ["IUp0"]

/-- Control. -/
def categoryCc : List String := ["0vCow"]

/-- Format. -/
def categoryCf : List String :=
  ["Et0BLv5n0Fd0Be0Kp1C90EDw0CEt4r4Be429CIWo0Gy2EP60g0JRnfBLHt3FS07BGUY70vCn"]

/-- Surrogate. -/
def categoryCs : List String := ["CHC0CEv"]

/-- Private Use. -/
def categoryCo : List String := ["CJGwGVrBLUE1CSAd3CSAd"]

/-- The categories by their names. -/
def categories : List (List String × List String) :=
  [(["lu", "uppercaseletter"], categoryLu),
   (["ll", "lowercaseletter"], categoryLl),
   (["lt", "titlecaseletter"], categoryLt),
   (["lm", "modifierletter"], categoryLm),
   (["lo", "otherletter"], categoryLo),
   (["mn", "nonspacingmark"], categoryMn),
   (["mc", "spacingmark"], categoryMc),
   (["me", "enclosingmark"], categoryMe),
   (["nd", "decimalnumber", "digit"], categoryNd),
   (["nl", "letternumber"], categoryNl),
   (["no", "othernumber"], categoryNo),
   (["pc", "connectorpunctuation"], categoryPc),
   (["pd", "dashpunctuation"], categoryPd),
   (["ps", "openpunctuation"], categoryPs),
   (["pe", "closepunctuation"], categoryPe),
   (["pi", "initialpunctuation"], categoryPi),
   (["pf", "finalpunctuation"], categoryPf),
   (["po", "otherpunctuation"], categoryPo),
   (["sm", "mathsymbol"], categorySm),
   (["sc", "currencysymbol"], categorySc),
   (["sk", "modifiersymbol"], categorySk),
   (["so", "othersymbol"], categorySo),
   (["zs", "spaceseparator"], categoryZs),
   (["zl", "lineseparator"], categoryZl),
   (["zp", "paragraphseparator"], categoryZp),
   (["cc", "control", "cntrl"], categoryCc),
   (["cf", "format"], categoryCf),
   (["cs", "surrogate"], categoryCs),
   (["co", "privateuse"], categoryCo)]

def categoryGroups : List (List String × List (List String)) :=
  [(["l", "letter"],
    [categoryLu, categoryLl, categoryLt, categoryLm, categoryLo]),
   (["lc", "casedletter"],
    [categoryLu, categoryLl, categoryLt]),
   (["m", "mark", "combiningmark"],
    [categoryMn, categoryMc, categoryMe]),
   (["n", "number"],
    [categoryNd, categoryNl, categoryNo]),
   (["p", "punctuation", "punct"],
    [categoryPc, categoryPd, categoryPs, categoryPe, categoryPi, categoryPf, categoryPo]),
   (["s", "symbol"],
    [categorySm, categorySc, categorySk, categorySo]),
   (["z", "separator"],
    [categoryZs, categoryZl, categoryZp])]

end TagMachine.Text.Tables
