set_option autoImplicit false

/-! # Case mappings

The case mappings of the Unicode character database. An entry `a-b>c` maps the code points from
`a` to `b` to those from `c` on; with `=` in place of `-` only every second one is mapped. Of `b`
and `c` only the last digits are written if they begin as `a` does.
-/

namespace TagMachine.Text.Tables

/-- The characters with a lower-case form of one character that is their case folding, too. -/
def commonCase : List String :=
  ["41-5a>61 c0-d6>e0 d8-e>f8 100=2e>1 132=6>3 139=47>a 14a=76>b 178>0ff 179=d>a 181>253 182=4>3",
   "186>254 187>8 189-a>256 18b>c 18e>dd 18f>259 190>25b 191>2 193>260 194>263 196>269 197>268",
   "198>9 19c>26f 19d>272 19f>275 1a0=4>1 1a6>280 1a7>8 1a9>283 1ac>d 1ae>288 1af>b0 1b1-2>28a",
   "1b3=5>4 1b7>292 1b8>9 1bc>d 1c4>6 1c5>6 1c7>9 1c8>9 1ca>c 1cb=db>c 1de=ee>f 1f1>3 1f2=4>3",
   "1f6>95 1f7>bf 1f8=21e>9 220>19e 222=32>3 23a>2c65 23b>c 23d>19a 23e>2c66 241>2 243>180",
   "244>89 245>8c 246=e>7 370=2>1 376>7 37f>f3 386>ac 388-a>ad 38c>cc 38e-f>cd 391-a1>b1",
   "3a3-b>c3 3cf>d7 3d8=ee>9 3f4>b8 3f7>8 3f9>2 3fa>b 3fd-f>7b 400-f>50 410-2f>30 460=80>1",
   "48a=be>b 4c0>f 4c1=d>2 4d0=52e>1 531-56>61 10a0-c5>2d00 10c7>2d27 10cd>2d2d 1c89>a",
   "1c90-ba>0d0 1cbd-f>0fd 1e00=94>1 1e9e>00df 1ea0=fe>1 1f08-f>0 1f18-d>0 1f28-f>0 1f38-f>0",
   "1f48-d>0 1f59=f>1 1f68-f>0 1f88-f>0 1f98-f>0 1fa8-f>0 1fb8-9>0 1fba-b>70 1fbc>3 1fc8-b>72",
   "1fcc>3 1fd8-9>0 1fda-b>76 1fe8-9>0 1fea-b>7a 1fec>5 1ff8-9>78 1ffa-b>7c 1ffc>3 2126>03c9",
   "212a>006b 212b>00e5 2132>4e 2160-f>70 2183>4 24b6-cf>d0 2c00-2f>30 2c60>1 2c62>026b",
   "2c63>1d7d 2c64>027d 2c67=b>8 2c6d>0251 2c6e>0271 2c6f>0250 2c70>0252 2c72>3 2c75>6",
   "2c7e-f>023f 2c80=e2>1 2ceb=d>c 2cf2>3 a640=6c>1 a680=9a>1 a722=e>3 a732=6e>3 a779=b>a",
   "a77d>1d79 a77e=86>f a78b>c a78d>0265 a790=2>1 a796=a8>7 a7aa>0266 a7ab>025c a7ac>0261",
   "a7ad>026c a7ae>026a a7b0>029e a7b1>0287 a7b2>029d a7b3>b53 a7b4=c2>5 a7c4>94 a7c5>0282",
   "a7c6>1d8e a7c7=9>8 a7cb>0264 a7cc=da>d a7dc>019b a7f5>6 ff21-3a>41 10400-27>28 104b0-d3>d8",
   "10570-a>97 1057c-8a>a3 1058c-92>b3 10594-5>bb 10c80-b2>c0 10d50-65>70 118a0-bf>c0",
   "16e40-5f>60 16ea0-b8>bb 1e900-21>22"]

/-- The characters with a lower-case form of one character; Cherokee letters fold the other way. -/
def lowerCase : List String :=
  commonCase ++ ["13a0-ef>ab70 13f0-5>8"]

/-- The characters that simple case folding changes. -/
def caseFolding : List String :=
  commonCase ++
    ["b5>3bc 17f>073 345>b9 3c2>3 3d0>b2 3d1>b8 3d5>c6 3d6>c0 3f0>ba 3f1>c1 3f5>b5 13f8-d>0",
     "1c80>0432 1c81>0434 1c82>043e 1c83-4>0441 1c85>0442 1c86>044a 1c87>0463 1c88>a64b 1e9b>61",
     "1fbe>03b9 ab70-bf>13a0"]

/-- The characters that are no lower-case form of their upper-case form. -/
def upperCase : List String :=
  ["b5>39c 131>049 17f>053 1c5>4 1c8>7 1cb>a 1f2>1 345>99 3c2>a3 3d0>92 3d1>98 3d5>a6 3d6>a0",
   "3f0>9a 3f1>a1 3f5>95 1c80>0412 1c81>0414 1c82>041e 1c83-4>0421 1c85>0422 1c86>042a 1c87>0462",
   "1c88>a64a 1e9b>60 1fbe>0399"]

/-- The characters with an upper-case form of several characters: `c` moves along in `a-b>c.d`. -/
def upperCaseLong : List String :=
  ["df>53.53 149>2bc.4e 1f0>04a.30c 390>9.308.301 3b0>a5.308.301 587>35.552 1e96>0048.331",
   "1e97>0054.308 1e98>0057.30a 1e99>0059.30a 1e9a>0041.2be 1f50>03a5.313 1f52>03a5.313.300",
   "1f54>03a5.313.301 1f56>03a5.313.342 1f80-7>08.399 1f88-f>08.399 1f90-7>28.399 1f98-f>28.399",
   "1fa0-7>68.399 1fa8-f>68.399 1fb2>a.399 1fb3>0391.399 1fb4>0386.399 1fb6>0391.342",
   "1fb7>0391.342.399 1fbc>0391.399 1fc2>a.399 1fc3>0397.399 1fc4>0389.399 1fc6>0397.342",
   "1fc7>0397.342.399 1fcc>0397.399 1fd2>0399.308.300 1fd3>0399.308.301 1fd6>0399.342",
   "1fd7>0399.308.342 1fe2>03a5.308.300 1fe3>03a5.308.301 1fe4>03a1.313 1fe6>03a5.342",
   "1fe7>03a5.308.342 1ff2>a.399 1ff3>03a9.399 1ff4>038f.399 1ff6>03a9.342 1ff7>03a9.342.399",
   "1ffc>03a9.399 fb00>0046.46 fb01>0046.49 fb02>0046.4c fb03>0046.46.49 fb04>0046.46.4c",
   "fb05>0053.54 fb06>0053.54 fb13>0544.546 fb14>0544.535 fb15>0544.53b fb16>054e.546",
   "fb17>0544.53d"]

end TagMachine.Text.Tables
