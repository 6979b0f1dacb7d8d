namespace LogTail.Unicode.Table

def lu : String :=
  "41 19 65 16 1 6 21 0 1 0 1 0 1 0 1 0 1 0 1 0 1 0 1 0 1 0 1 0 1 0 1 0 1 0 1 0 1 0 1 0 1 0 1 0
    1 0 1 0 1 0 1 0 1 0 1 0 1 0 1 0 1 0 2 0 1 0 1 0 1 0 1 0 1 0 1 0 1 0 2 0 1 0 1 0 1 0 1 0 1 0
    1 0 1 0 1 0 1 0 1 0 1 0 1 0 1 0 1 0 1 0 1 0 1 0 1 0 1 0 1 0 1 0 1 0 1 1 1 0 1 0 3 1 1 0 1 1
    1 2 2 3 1 1 1 2 3 1 1 1 1 0 1 0 1 1 1 0 2 0 1 1 1 2 1 0 1 1 3 0 7 0 2 0 2 0 2 0 1 0 1 0 1 0
    1 0 1 0 1 0 1 0 2 0 1 0 1 0 1 0 1 0 1 0 1 0 1 0 1 0 2 0 2 0 1 2 1 0 1 0 1 0 1 0 1 0 1 0 1 0
    1 0 1 0 1 0 1 0 1 0 1 0 1 0 1 0 1 0 1 0 1 0 1 0 1 0 1 0 1 0 1 0 1 0 1 0 1 0 1 0 1 0 1 0 7 1
    1 1 2 0 1 3 1 0 1 0 1 0 1 0 121 0 1 0 3 0 8 0 6 0 1 2 1 0 1 1 1 10 1 8 23 0 2 2 3 0 1 0 1 0
    1 0 1 0 1 0 1 0 1 0 1 0 1 0 1 0 1 0 5 0 2 0 1 1 2 32 30 0 1 0 1 0 1 0 1 0 1 0 1 0 1 0 1 0 1
    0 1 0 1 0 1 0 1 0 1 0 1 0 1 0 9 0 1 0 1 0 1 0 1 0 1 0 1 0 1 0 1 0 1 0 1 0 1 0 1 0 1 0 1 0 1
    0 1 0 1 0 1 0 1 0 1 0 1 0 1 0 1 0 1 0 1 0 1 0 1 1 1 0 1 0 1 0 1 0 1 0 1 0 2 0 1 0 1 0 1 0 1
    0 1 0 1 0 1 0 1 0 1 0 1 0 1 0 1 0 1 0 1 0 1 0 1 0 1 0 1 0 1 0 1 0 1 0 1 0 1 0 1 0 1 0 1 0 1
    0 1 0 1 0 1 0 1 0 1 0 1 0 1 0 1 0 1 0 1 0 1 0 1 0 1 0 1 0 1 0 1 0 1 0 1 0 1 0 1 0 2 25 b49
    25 1 0 5 0 2d2 55 893 0 6 2a 2 2 140 0 1 0 1 0 1 0 1 0 1 0 1 0 1 0 1 0 1 0 1 0 1 0 1 0 1 0 1
    0 1 0 1 0 1 0 1 0 1 0 1 0 1 0 1 0 1 0 1 0 1 0 1 0 1 0 1 0 1 0 1 0 1 0 1 0 1 0 1 0 1 0 1 0 1
    0 1 0 1 0 1 0 1 0 1 0 1 0 1 0 1 0 1 0 1 0 1 0 1 0 1 0 1 0 1 0 1 0 1 0 1 0 1 0 1 0 1 0 1 0 1
    0 1 0 1 0 1 0 1 0 1 0 1 0 1 0 1 0 1 0 1 0 1 0 1 0 1 0 1 0 9 0 1 0 1 0 1 0 1 0 1 0 1 0 1 0 1
    0 1 0 1 0 1 0 1 0 1 0 1 0 1 0 1 0 1 0 1 0 1 0 1 0 1 0 1 0 1 0 1 0 1 0 1 0 1 0 1 0 1 0 1 0 1
    0 1 0 1 0 1 0 1 0 1 0 1 0 1 0 1 0 1 0 1 0 1 0 1 0 1 0 1 0 1 0 1 0 1 0 9 7 8 5 a 7 8 7 8 5 b
    0 1 0 1 0 1 0 8 7 48 3 c 3 c 3 c 4 b 3 106 0 4 0 3 2 2 2 2 0 3 4 6 0 1 0 1 0 1 3 2 3 a 1 5 0
    3d 0 a7c 2f 30 0 1 2 2 0 1 0 1 0 1 3 1 0 2 0 8 2 1 0 1 0 1 0 1 0 1 0 1 0 1 0 1 0 1 0 1 0 1 0
    1 0 1 0 1 0 1 0 1 0 1 0 1 0 1 0 1 0 1 0 1 0 1 0 1 0 1 0 1 0 1 0 1 0 1 0 1 0 1 0 1 0 1 0 1 0
    1 0 1 0 1 0 1 0 1 0 1 0 1 0 1 0 1 0 1 0 1 0 1 0 1 0 1 0 1 0 8 0 1 0 4 0 794d 0 1 0 1 0 1 0 1
    0 1 0 1 0 1 0 1 0 1 0 1 0 1 0 1 0 1 0 1 0 1 0 1 0 1 0 1 0 1 0 1 0 1 0 1 0 13 0 1 0 1 0 1 0 1
    0 1 0 1 0 1 0 1 0 1 0 1 0 1 0 1 0 1 0 87 0 1 0 1 0 1 0 1 0 1 0 1 0 3 0 1 0 1 0 1 0 1 0 1 0 1
    0 1 0 1 0 1 0 1 0 1 0 1 0 1 0 1 0 1 0 1 0 1 0 1 0 1 0 1 0 1 0 1 0 1 0 1 0 1 0 1 0 1 0 1 0 1
    0 1 0 a 0 1 0 1 1 1 0 1 0 1 0 1 0 4 0 1 0 2 0 1 0 3 0 1 0 1 0 1 0 1 0 1 0 1 0 1 0 1 0 1 0 1
    4 1 4 1 0 1 0 1 0 1 0 1 0 1 0 1 0 1 3 1 0 1 1 1 0 1 0 1 0 1 0 1 0 1 0 1 0 1 0 18 0 572b 19
    4c5 27 88 23 9c a 1 e 1 6 1 1 6ea 32 9d 15 b3a 1f 5580 1f 40 18 6547 19 1a 19 1a 19 1a 0 1 1
    2 0 2 1 2 3 1 7 1a 19 1a 1 1 3 2 7 1 6 1b 1 1 3 1 4 1 0 3 6 1b 19 1a 19 1a 19 1a 19 1a 19 1a
    19 1e 18 21 18 21 18 21 18 21 18 21 0 1135 21"

def ll : String :=
  "61 19 3a 0 29 17 1 7 1 0 1 0 1 0 1 0 1 0 1 0 1 0 1 0 1 0 1 0 1 0 1 0 1 0 1 0 1 0 1 0 1 0 1 0
    1 0 1 0 1 0 1 0 1 0 1 0 1 0 1 0 1 0 1 1 1 0 1 0 1 0 1 0 1 0 1 0 1 0 1 1 1 0 1 0 1 0 1 0 1 0
    1 0 1 0 1 0 1 0 1 0 1 0 1 0 1 0 1 0 1 0 1 0 1 0 1 0 1 0 1 0 1 0 1 0 1 0 2 0 1 0 1 2 2 0 1 0
    2 0 3 1 4 0 2 0 3 2 2 0 2 0 1 0 1 0 2 0 1 1 1 0 2 0 3 0 1 0 2 1 2 2 6 0 2 0 2 0 1 0 1 0 1 0
    1 0 1 0 1 0 1 0 1 1 1 0 1 0 1 0 1 0 1 0 1 0 1 0 1 0 1 1 2 0 1 0 3 0 1 0 1 0 1 0 1 0 1 0 1 0
    1 0 1 0 1 0 1 0 1 0 1 0 1 0 1 0 1 0 1 0 1 0 1 0 1 0 1 0 1 0 1 0 1 0 1 0 1 0 1 0 1 0 1 0 1 6
    2 0 2 1 1 0 4 0 1 0 1 0 1 0 1 44 2 19 c1 0 1 0 3 0 3 2 12 0 1b 22 1 1 3 2 1 0 1 0 1 0 1 0 1
    0 1 0 1 0 1 0 1 0 1 0 1 0 1 4 1 0 2 0 2 1 33 2f 1 0 1 0 1 0 1 0 1 0 1 0 1 0 1 0 1 0 1 0 1 0
    1 0 1 0 1 0 1 0 1 0 1 0 9 0 1 0 1 0 1 0 1 0 1 0 1 0 1 0 1 0 1 0 1 0 1 0 1 0 1 0 1 0 1 0 1 0
    1 0 1 0 1 0 1 0 1 0 1 0 1 0 1 0 1 0 1 0 2 0 1 0 1 0 1 0 1 0 1 0 1 1 1 0 1 0 1 0 1 0 1 0 1 0
    1 0 1 0 1 0 1 0 1 0 1 0 1 0 1 0 1 0 1 0 1 0 1 0 1 0 1 0 1 0 1 0 1 0 1 0 1 0 1 0 1 0 1 0 1 0
    1 0 1 0 1 0 1 0 1 0 1 0 1 0 1 0 1 0 1 0 1 0 1 0 1 0 1 0 1 0 1 0 1 0 1 0 1 0 30 28 b47 2a 2 2
    2f8 5 882 8 1 0 75 2b 3f c 1 21 66 0 1 0 1 0 1 0 1 0 1 0 1 0 1 0 1 0 1 0 1 0 1 0 1 0 1 0 1 0
    1 0 1 0 1 0 1 0 1 0 1 0 1 0 1 0 1 0 1 0 1 0 1 0 1 0 1 0 1 0 1 0 1 0 1 0 1 0 1 0 1 0 1 0 1 0
    1 0 1 0 1 0 1 0 1 0 1 0 1 0 1 0 1 0 1 0 1 0 1 0 1 0 1 0 1 0 1 0 1 0 1 0 1 0 1 0 1 0 1 0 1 0
    1 0 1 0 1 0 1 0 1 0 1 0 1 0 1 0 1 0 1 0 1 0 1 0 1 0 1 8 1 0 1 0 1 0 1 0 1 0 1 0 1 0 1 0 1 0
    1 0 1 0 1 0 1 0 1 0 1 0 1 0 1 0 1 0 1 0 1 0 1 0 1 0 1 0 1 0 1 0 1 0 1 0 1 0 1 0 1 0 1 0 1 0
    1 0 1 0 1 0 1 0 1 0 1 0 1 0 1 0 1 0 1 0 1 0 1 0 1 0 1 0 1 0 1 0 1 8 8 5 a 7 8 7 8 5 a 7 8 7
    8 d 2 7 8 7 8 7 8 4 1 1 6 0 3 2 1 1 8 3 2 1 8 7 a 2 1 1 112 0 3 1 3 0 1b 0 4 0 4 0 2 1 8 3 4
    0 35 0 aab 2f 1 0 3 1 1 0 1 0 1 0 4 0 1 1 1 5 5 0 1 0 1 0 1 0 1 0 1 0 1 0 1 0 1 0 1 0 1 0 1
    0 1 0 1 0 1 0 1 0 1 0 1 0 1 0 1 0 1 0 1 0 1 0 1 0 1 0 1 0 1 0 1 0 1 0 1 0 1 0 1 0 1 0 1 0 1
    0 1 0 1 0 1 0 1 0 1 0 1 0 1 0 1 0 1 0 1 0 1 0 1 0 1 0 1 0 1 1 7 0 1 0 4 0 c 25 1 0 5 0 7913
    0 1 0 1 0 1 0 1 0 1 0 1 0 1 0 1 0 1 0 1 0 1 0 1 0 1 0 1 0 1 0 1 0 1 0 1 0 1 0 1 0 1 0 1 0 13
    0 1 0 1 0 1 0 1 0 1 0 1 0 1 0 1 0 1 0 1 0 1 0 1 0 1 0 87 0 1 0 1 0 1 0 1 0 1 0 1 2 1 0 1 0 1
    0 1 0 1 0 1 0 1 0 1 0 1 0 1 0 1 0 1 0 1 0 1 0 1 0 1 0 1 0 1 0 1 0 1 0 1 0 1 0 1 0 1 0 1 0 1
    0 1 0 1 0 1 0 1 0 1 0 1 7 1 0 1 0 2 0 1 0 1 0 1 0 1 0 4 0 1 0 2 0 1 2 1 0 1 0 1 0 1 0 1 0 1
    0 1 0 1 0 1 0 1 0 5 0 5 0 1 0 1 0 1 0 1 0 1 0 1 0 1 0 4 0 1 0 2 0 1 0 1 0 1 0 1 0 1 0 1 0 1
    0 1a 0 3 0 335 2a 5 8 7 4f 4f40 6 c 4 429 19 4cd 27 88 23 9b a 1 e 1 6 1 1 703 32 7d 15 b3a
    1f 5580 1f 3b 18 6546 19 1a 6 1 11 1a 19 1a 3 1 0 1 6 1 a 1a 19 1a 19 1a 19 1a 19 1a 19 1a
    19 1a 19 1a 19 1a 1b 1c 18 1 5 1a 18 1 5 1a 18 1 5 1a 18 1 5 1a 18 1 5 1 0 734 9 1 13 6 5
    9f7 21"

def lt : String :=
  "1c5 0 2 0 2 0 26 0 1d95 7 8 7 8 7 c 0 f 0 2f 0"

def lm : String :=
  "2b0 11 4 b e 4 7 0 1 0 85 0 5 0 1de 0 e6 0 a4 1 10d 1 4 0 1f 0 9 0 3 0 a0 0 a7 0 4d4 0 7f 0
    235 0 6da 0 6b 0 263 0 1d0 5 ae 3e d 0 22 24 2b1 0 d 0 10 c bdf 1 f1 0 bf 0 1d5 0 2b 4 5 0
    61 1 5d 2 6f16 0 4e2 5 10e 0 72 0 1c 1 79 8 50 0 17 0 68 3 3 1 1d5 0 16 0 89 0 6c 0 15 1 67
    3 9 0 5406 0 2d 1 7e0 5 1 29 1 8 593 0 20 0 155 0 f13 0 4d66 3 1fc 2 28 1 226 c 40 1 1 0 e 1
    3ffc 3 1 6 1 1 3031 3d c9 6 3ad 0 213 0 24b 0"

def lo : String :=
  "aa 0 f 0 100 0 4 3 d0 1 33a 1a 4 3 2d 1f 1 9 23 1 1 62 1 0 18 1 a 2 2 0 10 0 1 1d 1d 58 b 0
    18 20 15 15 2a 18 7 a 5 17 1 6 10 28 3b 35 3 0 12 0 7 9 10 e 4 7 2 1 2 15 1 6 1 0 3 3 3 0 10
    0 d 1 1 2 e 1 a 0 8 5 4 1 2 15 1 6 1 1 1 1 1 1 1f 3 1 0 13 2 10 8 1 2 1 15 1 6 1 1 1 4 3 0
    12 0 f 1 17 0 b 7 2 1 2 15 1 6 1 1 1 4 3 0 1e 1 1 2 f 0 11 0 1 5 3 2 1 3 3 1 1 0 1 1 3 1 3 2
    3 b 16 0 34 7 1 2 1 16 1 f 3 0 1a 2 1 1 2 1 1e 0 4 7 1 2 1 16 1 9 1 4 3 0 1e 2 1 1 f 1 11 8
    1 2 1 28 2 0 10 0 5 2 8 2 18 5 5 11 3 17 1 8 1 0 2 6 3a 2f 1 1 c 5 3b 1 1 0 1 4 1 17 1 0 1 9
    1 1 9 0 2 4 17 3 20 0 3f 7 1 23 1b 4 73 2a 14 0 10 5 4 3 3 0 3 1 7 2 4 c c 0 71 148 1 3 2 6
    1 0 1 3 2 28 1 3 2 20 1 3 2 6 1 0 1 3 2 e 1 38 1 3 2 42 25 f 71 26b 2 10 1 19 5 4a 6 7 7 11
    d 12 e 11 e c 1 2 f 33 28 0 43 22 1 34 7 4 2 21 1 0 5 45 a 1e 31 1d 2 4 b 2b 4 19 36 16 9 34
    b0 2e 11 7 36 1d d 1 a 2b 1a 23 29 2 a 1d 71 3 1 5 1 1 3 0 43a 3 bf7 37 18 16 9 6 1 6 1 6 1
    6 1 6 1 6 1 6 1 6 227 0 35 0 4 55 8 0 1 59 4 0 5 2a 1 5d 11 1f 30 f 200 19bf 40 5214 1 476
    43 27 8 10b 4 f a 1 42 0 31 45 a9 0 67 0 3 6 1 2 1 3 1 16 1d 33 e 31 3e 5 3 0 1 1 b 1b a 16
    19 1c 7 2e 2d 4 2 8 a 4 1 28 17 2 1 7 14 f 1 5 3 0 3 31 1 0 3 1 2 4 2 0 1 0 18 1 3 a 7 0 e 5
    2 5 2 5 9 6 1 6 91 22 1d 2ba3 c 16 4 30 2104 16d 2 69 43 0 1 9 1 c 1 4 1 0 1 1 1 1 1 6b 21
    16a 12 3f 2 35 28 b 74 4 1 86 69 9 1 2c 2 1e 3 5 2 5 2 5 2 2 23 b 1 19 1 12 1 1 1 e 2 d 22
    7a 185 1c 3 30 2f 1f d 13 1 7 6 25 a 1d 2 23 4 7 80 4d 62 27 8 33 5c 33 c 136 9 15 a 7 98 5
    2 0 1 2b 1 1 3 0 2 16 a 16 9 1e 41 12 1 1 a 15 a 19 6 19 26 37 6 1 40 0 f 3 1 2 1 1c 2a 1c 3
    1c 23 7 1 1b 1b 35 a 15 a 12 d 11 6e 48 b7 23 26 3 1 0 130 29 6 1 10 2 1 1 38 1c a 0 8 15 2a
    11 2e 14 1b 16 c 34 39 1 2 0 d 2c 20 18 1a 23 1d 0 2 0 8 22 3 0 c 2f e 3 15 0 1 0 23 11 1 18
    13 1 3f 6 1 0 1 3 1 e 1 9 7 2e 26 7 2 1 2 15 1 6 1 1 1 4 3 0 12 0 c 4 1e 9 1 0 2 0 1 25 1 0
    19 0 1 0 2c 34 12 3 14 2 1e 2f 14 1 1 0 b8 2e 29 3 24 2f 14 0 3b 2a d 0 47 1a 25 6 b9 2b d3
    7 2 0 2 7 1 1 1 17 f 0 1 0 5e 7 2 26 10 0 1 0 1c 0 a 27 7 0 15 0 b 2d 13 0 12 48 c7 20 1f 8
    1 24 11 0 31 1d 70 6 1 1 1 25 15 0 19 5 1 1 1 1f e 0 17 28 1 1 104 12 f 0 1 c 1 21 7c 0 4f
    399 e6 c3 a4c 60 f 42f 11 5 19 f9a 5 246 1ab9 1d 6e2 238 7 1e 11 4e 11 1d 12 2f 33 14 5 12
    1b3 27 195 4a 5 0 af 1cd5 29 1f 61 72 220d 122 f 0 1d 2 2 0 e 3 8 18b 904 6a 5 c 3 8 7 9
    2270 0 1f5 2c 21 0 141 1d 12 2b 1e4 1a e5 1d 2 0 cf 1e 1 2 1 1 1 6 2 4 9 0 e1 6 1 3 1 1 1 e
    1 c4 53b 3 1 1a 1 1 1 0 2 0 1 9 1 3 1 0 1 0 6 0 4 0 1 0 1 0 1 2 1 1 1 0 2 0 1 0 1 0 1 0 1 0
    1 1 1 0 2 3 1 6 1 3 1 3 1 0 1 9 1 10 5 2 1 4 1 10 1144 a6df 20 111d 2 168d 2 1d30 f 26d 9a2
    21d 5e2 134a 5 2129"

def mn : String :=
  "300 6f 113 4 109 2c 1 0 1 1 1 1 1 0 48 a 30 14 10 0 65 6 2 5 2 1 1 3 23 0 1e 1a 5b a 3a 8 9
    0 18 3 1 8 1 2 1 4 2b 2 3b 8 2a 17 1 1f 37 0 1 0 4 7 4 0 3 6 a 1 1d 0 3a 0 4 3 8 0 14 1 1a 0
    2 1 39 0 4 1 4 1 2 2 3 0 1e 1 3 0 b 1 39 0 4 4 1 1 4 0 14 1 16 5 1 0 3a 0 2 0 1 3 8 0 7 1 b
    1 1e 0 3d 0 c 0 32 0 3 0 37 0 1 2 5 2 1 3 7 1 b 1 1d 0 3a 0 2 0 6 0 5 1 14 1 1c 1 39 1 4 3 8
    0 14 1 1d 0 48 0 7 2 1 0 5a 0 2 6 c 7 62 0 2 8 b 6 49 1 1b 0 1 0 1 0 37 d 1 4 1 1 5 a 1 23 9
    0 66 3 1 5 1 1 2 1 19 1 4 2 10 3 d 0 2 1 6 0 f 0 2bf 2 3b2 2 1d 1 1e 1 1e 1 40 1 1 6 8 0 2 a
    9 0 2d 2 1 0 75 1 22 0 76 2 4 1 9 0 6 2 db 1 2 0 3a 0 1 6 1 0 1 0 2 7 6 9 2 0 30 d 1 1e 2 b
    14 3 30 0 1 4 1 0 5 0 28 8 c 1 20 3 2 1 1 2 38 0 1 1 3 0 1 2 3a 7 2 1 98 2 1 c 1 6 4 0 6 0 3
    1 c6 3f 2d0 c 4 0 3 b bfe 2 8d 0 60 1f 22a 3 6b 1 75d4 0 4 9 20 1 50 1 110 0 3 0 4 0 19 1 5
    0 97 1 1a 11 d 0 26 7 19 a 2e 2 30 0 2 3 2 1 27 0 43 5 2 1 2 1 c 0 8 0 2f 0 33 0 1 2 2 1 5 1
    1 0 2a 1 8 0 ee 0 2 0 4 0 4f30 0 2e1 f 10 f 3cd 0 e2 0 95 4 686 2 1 1 5 3 28 2 4 0 a5 1 23d
    3 41 4 13d 1 4d 5 46 a 31 3 7b 0 36 e 29 0 2 1 a 2 31 3 2 1 7 0 3d 2 24 4 1 7 3e 0 c 1 34 8
    a 3 2 0 5f 2 2 0 1 1 6 0 2 0 9d 0 3 7 15 1 39 1 3 0 25 6 3 4 46 5 d 0 1 0 1 0 e 1 55 7 2 2 1
    0 17 0 54 5 1 0 4 1 1 1 ee 3 6 1 1 1 1b 1 55 7 2 0 1 1 6a 0 1 0 2 5 1 0 65 0 1 0 2 3 1 4 103
    8 1 1 100 1 1 0 4 0 90 3 2 1 4 0 20 9 28 5 2 3 8 0 9 5 2 2 2e c 1 1 c6 0 1 2 1 0 c9 6 1 5 1
    0 52 15 2 6 1 1 1 1 7a 5 3 0 1 1 1 6 1 0 48 1 3 0 1 0 15b 1 b 1 34 4 5 0 1 0 17 0 14e5 0 6 e
    2cc8 b 3 2 9c0 4 3b 6 418 0 3f 3 51 0 4cb8 1 1261 2d 2 16 220 2 11 7 2 6 1e 3 94 2 7bb 36 4
    31 8 0 e 0 16 4 1 e 550 6 1 10 2 6 1 1 1 4 64 0 a0 6 177 0 3d 3 1fc 3 fe 1 f3 0 2 0 7 1 5 0
    1da 6 6d 6 c17b5 ef"

def mc : String :=
  "903 0 37 0 2 2 8 3 1 1 32 1 3a 2 6 1 2 1 a 0 2b 0 3a 2 42 0 3a 2 8 0 1 1 35 1 3a 0 1 0 6 1 2
    1 a 0 66 1 1 1 3 2 1 2 a 0 29 2 3d 3 3d 1 3a 0 1 4 2 1 1 1 9 1 1c 0 e 1 3a 2 5 2 1 2 a 0 2a
    1 4b 2 6 7 12 1 14a 1 3f 0 ab 1 4 0 6 0 2 1 19 1 a 2 2 6 15 1 2 5 2 0 a 2 678 0 1e 0 81 0 7
    7 1 1 15a 3 2 2 4 1 1 5 e0 1 3a 0 1 0 9 0 1 1 8 5 91 0 30 0 5 0 1 4 1 1 3d 0 1e 0 4 1 2 0 3c
    0 2 2 1 0 3 1 30 7 8 1 ab 0 15 0 1336 1 77f3 1 2 0 58 1 32 f 8e 1 2f 0 30 1 4 1 2 2 6e 1 2 1
    18 0 2d 0 1 0 6d 0 2 1 5 0 ed 1 1 1 1 1 1 0 6413 0 1 0 7f 0 2d 2 4 1 73 0 18 1 3b 0 30 2 9 1
    d 0 5d 2 3 1 1 0 aa 2 1f 1 3a 1 1 3 2 1 2 2 9 0 a 1 54 2 7 0 2 0 1 3 1 1 1 0 65 2 8 1 3 0 6a
    2 6 0 1 3 2 0 ed 2 6 3 2 0 71 2 8 1 1 0 6d 0 1 1 6 0 67 0 1 1 4 0 105 2 9 0 f7 5 1 1 4 0 2 0
    1 0 8e 2 8 3 4 0 54 0 1d 1 3e 0 c9 0 3 0 1 0 c7 0 e 0 6a 0 7 0 2 0 d5 4 4 1 1 0 15e 1 c 0 30
    1 8 1 1 0 41e8 2 e24 36 68 1 6173 1 6 5"

def me : String :=
  "488 1 1634 0 61e 3 1 2 858b 2"

def nd : String :=
  "30 9 626 9 86 9 c6 9 19c 9 76 9 76 9 76 9 76 9 76 9 76 9 76 9 76 9 76 9 60 9 76 9 46 9 116 9
    46 9 746 9 26 9 12c 9 80 9 a6 9 6 9 b6 9 56 9 86 9 6 9 89c6 9 2a6 9 26 9 c6 9 16 9 56 9 196
    9 5316 9 586 9 886 9 6 9 31c 9 80 9 3c 9 90 9 116 9 156 9 76 9 176 9 66 9 6 13 4c 9 1a6 9 66
    9 296 9 56 9 f6 9 46 9 36 9 166 9 41d6 9 926 9 56 9 86 9 216 9 5f76 9 ad4 31 940 9 1a6 9 1f6
    9 f7 9 355 9 1296 9"

def nl : String :=
  "16ee 2 a6f 22 2 3 e7e 0 19 8 e 2 76ab 9 5a50 34 1cc 0 8 0 86 4 202a 6e 4b85 2"

def no : String :=
  "b2 1 5 0 2 2 935 5 178 5 78 2 85 6 d9 6 11 8 1b1 9 435 13 473 9 1e0 0 695 0 3 5 6 9 c6 f 29
    0 2d6 3b 4e 15 276 1d 569 0 494 3 8a 9 1e 7 1 e 20 9 27 e 7570 5 58d1 2c 41 3 11 1 155 1a 24
    3 534 7 19 6 27 8 4b 4 16 5 a0 1 2 f 2 2d 40 8 34 1 1e 2 4b 4 68 7 18 7 29 6 14a 5 160 1e 9e
    9 2a 3 70 6 86 13 17b 13 545 1 1ae 8 367 12 353 14 4b86 6 31e 16 6429 13 c 13 6c 18 154e 8
    3a1 3a 1 2 1 3 4c 2c 1 e 3c2 c"

def pc : String :=
  "5f 0 1fdf 1 13 0 ddde 1 18 2 ef 0"

def pd : String :=
  "2d 0 55c 0 33 0 e41 0 405 0 809 5 e01 0 2 0 1f 1 4 0 1c 0 1be 0 13 0 6f 0 cd90 1 25 0 a 0 a9
    0 e60 0 13e 0"

def ps : String :=
  "28 0 32 0 1f 0 ebe 0 1 0 75e 0 97e 0 3 0 26 0 37 0 f 0 27a 0 1 0 1e 0 43e 0 1 0 1 0 1 0 1 0
    1 0 1 0 50 0 20 0 1 0 1 0 1 0 1 0 194 0 1 0 1 0 1 0 1 0 1 0 1 0 1 0 1 0 1 0 1 0 40 0 1 0 21
    0 425 0 1 0 1 0 1 0 19 0 12 0 1 0 1 0 1 0 1ac 0 1 0 1 0 1 0 1 0 3 0 1 0 1 0 1 0 2 0 cd21 0
    d7 0 1d 0 1 0 1 0 1 0 1 0 1 0 1 0 1 0 3 0 11 0 1 0 1 0 aa 0 32 0 1f 0 3 0 2 0"

def pe : String :=
  "29 0 33 0 1f 0 ebd 0 1 0 75e 0 9a9 0 37 0 f 0 27a 0 1 0 1e 0 43e 0 1 0 1 0 1 0 1 0 1 0 1 0
    50 0 20 0 1 0 1 0 1 0 1 0 194 0 1 0 1 0 1 0 1 0 1 0 1 0 1 0 1 0 1 0 1 0 40 0 1 0 21 0 425 0
    1 0 1 0 1 0 2c 0 1 0 1 0 1 0 1ac 0 1 0 1 0 1 0 1 0 3 0 1 0 1 0 1 0 2 1 cd1e 0 d9 0 1d 0 1 0
    1 0 1 0 1 0 1 0 1 0 1 0 3 0 11 0 1 0 1 0 aa 0 33 0 1f 0 2 0 2 0"

def pi : String :=
  "ab 0 1f6c 0 2 1 2 0 19 0 dc8 0 1 0 4 0 2 0 f 0 3 0"

def pf : String :=
  "bb 0 1f5d 0 3 0 1c 0 dc8 0 1 0 4 0 2 0 f 0 3 0"

def po : String :=
  "21 2 1 2 2 0 1 0 1 1 a 1 3 1 1b 0 44 0 5 0 e 1 7 0 2be 0 8 0 1d2 5 29 0 36 0 2 0 2 0 2c 1 14
    1 1 1 d 0 1 2 4a 3 66 0 2b d e9 2 36 e 1f 0 105 1 a 0 8c 0 78 0 79 0 186 0 c 0 16f 0 5a 0 a
    1 a8 e 1 0 70 0 4a 4 4 1 6f 5 ab 0 264 8 305 0 7c 2 47 1 9d 2 1 2 25 5 1 3 139 1 d8 1 80 6 1
    5 a0 1 a 6 1c 2 7c 3 3b 4 3e 1 40 7 b 0 342 1 8 7 8 8 2 3 2 2 3 a 1 0 1 9 c9a 3 1 1 70 0 8f
    1 4 2 2 0 2 8 1 1 1 0 2 1 a 4 1 9 2 3 1 0 1 c 2 2 1ac 2 39 0 bd 0 7402 1 10d 2 63 0 a 0 73 5
    17c 3 56 1 28 2 1 0 31 1 2f 0 61 c 10 1 7c 3 7e 1 10 1 f9 0 5224 6 2 0 16 0 14 1 2 3 3 2 1 3
    7 2 6 0 1 1 95 2 1 2 2 0 1 0 1 1 a 1 3 1 1b 0 24 0 2 1 19a 2 29c 0 30 0 19e 0 2e7 0 c7 0 1f
    0 110 8 26 0 70 6 42 6 59 3 333 0 84 4 2c 3 bd 6 6d 1 1 3 7e 3 30 1 4f 3 4 0 d 0 1 2 58 5 6b
    0 12a 1 1 1 72 4 a 1 1 0 68 0 fa 16 69 2 1c c 4c 0 82 2 fc 0 108 2 9b 0 5c 7 53 2 1 4 5d 9
    d7 0 5f 4 2a 1 285 1 4a c af 0 470 4 b7c 1 3a7b 1 85 0 41 4 8 0 228 2 127 3 147 0 4cbc 0
    1de7 4 b73 0 35e 1"

def sm : String :=
  "2b 0 10 2 3d 0 1 0 2d 0 4 0 25 0 1f 0 2fe 0 20f 2 1a3b 0 d 0 27 2 d 2 8b 0 27 4 6 0 44 4 5 1
    4 0 2 0 2 0 7 0 1f 1 2 0 1 0 1f 10b 20 1 5a 0 1e 18 28 5 1d5 0 9 0 36 7 6f 0 150 4 2 1e a f
    100 82 16 3e 4 1f 2 101 30 14 2 5 cfdc 0 338 0 1 2 a4 0 10 2 3d 0 1 0 83 0 6 3 da1 1 c160 0
    7d0 0 19 0 1f 0 19 0 1f 0 19 0 1f 0 19 0 1f 0 19 0 172c 1 9de 8"

def sc : String :=
  "24 0 7d 3 4e9 0 7b 0 1f2 1 1f2 1 7 0 f5 0 107 0 245 0 99b 0 8c4 21 8776 0 55c3 0 6c 0 9a 0
    db 1 3 1 1ff6 3 c31e 0 9b0 0"

def sk : String :=
  "5e 0 1 0 47 0 6 0 4 0 3 0 209 3 c d 5 6 1 0 1 10 75 0 e 1 502 0 1734 0 1 2 b 2 d 2 d 2 d 1
    109c 1 7663 16 9 1 67 1 3d0 0 e 1 5046 10 37b 0 1 0 a2 0 f417 4"

def so : String :=
  "a6 0 2 0 4 0 1 0 3d1 0 10a 1 7f 1 ce 0 a 0 13 1 f7 0 203 0 175 0 82 5 1 0 84 0 cf 0 29 0 187
    2 f 0 1 2 2 5 14 0 1 0 1 0 85 7 1 5 1 1 5 3 c5 1 2f0 9 2d3 0 2d2 0 9d 21 161 9 9 8 583 1 1 3
    1 1 a 0 1 1 6 5 1 0 1 0 1 0 4 0 b 1 e 0 1 1 1 0 3a 1 9 4 2 3 1 1 1 1 1 6 1 1e 2 1 1 0 1 1e
    10c 7 4 13 2 6 2 50 1 1d 19 27 6 47 16 a 51 4d 16 b6 1 8 1 35 8 6e 1 f7 2c 2b 40 ff 200 2f
    15 1 6 26 2 89 e5 5 165 1 2e 19 1 58 c d5 1a f 4 0 d 1 c 0 15 1 6 1 150 1 4 9 20 25 9 0 10
    1e b 1d 8 0 f 1f a 26 f 13f 19c0 3f 5690 36 361 3 a 1 1 0 23d 2 5149 f 16d f 40 1 36 7 2d 2
    1e4 0 3 0 4 1 d 1 139 8 39 10 2 2 1 c 3 0 2f 2c 67a 1 24f 0 408 7 866 0 895 7 4 10 4b4a 3 5
    0 5156 0 f63 ef a 2 3 1b3 6 16 f f 60 73 3c f5 a 26 2 3b 5 2 16 1 7 1d 4 3c 15 41 3 0 ba 56
    4a9 1ff 37 3 32 7 1 d 1 1 6c8 0 b5c 0 81 0 2d1 2b 4 63 c e 2 e 1 e 1 24 17 a0 38 1c d 2b 4 8
    7 1 e 5 9a fa 5 2d8 3 10 3 c 3 d9 6 b 4 0 f b 4 37 8 9 6 27 8 1d 2 b 4 1 3e 157 8 d 2 c 3 a
    3 38 1 0 4 f 2 b 4 9 7 92 1 5b a 0"

def zs : String :=
  "20 0 7f 0 15df 0 97f a 24 0 2f 0 fa0 0"

def zl : String :=
  "2028 0"

def zp : String :=
  "2029 0"

def cc : String :=
  "0 1f 5f 20"

def cf : String :=
  "ad 0 552 5 16 0 c0 0 31 0 180 1 50 0 f2b 0 7fc 4 1a 4 31 4 1 9 de8f 0 f9 2 10c1 0 f 0 2362 f
    8860 3 14cf 7 c2e86 0 1e 5f"

def co : String :=
  "e000 18ff e0700 fffd 2 fffd"

def alphabetic : String :=
  "41 19 6 19 2f 0 a 0 4 0 5 16 1 1e 1 1c9 4 b e 4 7 0 1 0 56 0 1d 11 1 1 2 3 1 0 6 0 1 2 1 0 1
    13 1 52 1 8a 8 a5 1 25 2 0 6 28 27 d 1 0 1 1 1 1 1 0 8 1a 4 3 1d a 5 37 1 6 e 65 1 7 4 7 4 2
    a 2 2 0 10 2f d 64 18 20 9 1 4 0 5 17 2 12 13 18 7 a 5 17 1 6 7 0 8 29 a b 3 6 6 4b 1 f 1 2
    4 e d 12 1 7 2 1 2 15 1 6 1 0 3 3 3 7 2 1 2 1 1 0 8 0 4 1 1 4 c 1 a 0 4 2 1 5 4 1 2 15 1 6 1
    1 1 1 1 1 4 4 4 1 2 1 4 0 7 3 1 0 11 5 b 2 1 8 1 2 1 15 1 6 1 1 1 4 3 8 1 2 1 1 3 0 f 3 15 3
    4 2 1 7 2 1 2 15 1 6 1 1 1 4 3 7 2 1 2 1 9 1 4 1 1 4 d 0 10 1 1 5 3 2 1 3 3 1 1 0 1 1 3 1 3
    2 3 b 4 4 3 2 1 2 3 0 6 0 28 c 1 2 1 16 1 f 3 7 1 2 1 2 8 1 1 2 1 1 2 3 1c 3 1 7 1 2 1 16 1
    9 1 4 3 7 1 2 1 2 8 1 5 2 1 3 d 2 c c 1 2 1 28 2 7 1 2 1 2 1 0 5 3 7 4 16 5 1 2 1 11 3 17 1
    8 1 0 2 6 8 5 1 0 1 7 12 1 d 39 5 6 6 0 33 1 1 0 1 4 1 17 1 0 1 12 1 2 2 4 1 0 6 0 e 3 20 0
    3f 7 1 23 4 12 4 f 1 23 43 36 1 0 2 4 10 3f a 3 2 25 1 0 5 0 2 2a 1 14c 1 3 2 6 1 0 1 3 2 28
    1 3 2 20 1 3 2 6 1 0 1 3 2 e 1 38 1 3 2 42 25 f 10 55 2 5 3 26b 2 10 1 19 5 4a 3 a 7 13 b 14
    c 13 c c 1 2 1 1 c 33 2 12 e 0 4 0 43 58 7 2a 5 45 a 1e 1 b 4 8 17 1d 2 4 b 2b 4 19 36 1b 4
    3e 2 13 32 0 17 1 b 2 31 33 1 e 1 7 33 29 2 3 a 2b 1 a e 36 16 2 a 23 2 a 5 2a 2 2 29 3 1 5
    1 1 3 0 5 bf 13 21 b 115 2 5 2 25 2 5 2 7 1 0 1 0 1 0 1 1e 2 34 1 6 1 0 3 2 1 6 3 3 2 5 4 c
    5 2 1 6 74 0 d 0 10 c 65 0 4 0 2 9 1 0 3 4 6 0 1 0 1 0 1 3 1 a 2 3 5 4 4 0 11 28 32d 33 716
    e4 6 3 3 1 c 25 1 0 5 0 2 37 7 0 10 16 9 6 1 6 1 6 1 6 1 6 1 6 1 6 1 6 1 1f 2f 0 1d5 2 19 8
    7 4 2 4 4 55 6 2 1 59 1 3 5 2a 1 5d 11 1f 30 f 200 19bf 40 568c 43 2d 2 10c 3 f a 1 14 2e 5
    7 3 70 27 8 2 66 2 51 14 14 1 20 18 33 c 43 1 0 2c 5 3 0 1 2 a 20 5 22 d 1c 3 32 1 b f 0 10
    f a 4 1 36 9 d 12 16 3 44 1 0 1 0 18 2 2 f 2 3 b 5 2 5 2 5 9 6 1 6 1 2a 1 d 6 7a 15 2ba3 c
    16 4 30 2104 16d 2 69 26 6 c 4 5 b 1 c 1 4 1 0 1 1 1 1 1 6b 21 16a 12 3f 2 35 28 b 74 4 1 86
    24 19 6 19 b 58 3 5 2 5 2 5 2 2 23 b 1 19 1 12 1 1 1 e 2 d 22 7a 45 34 10b 1c 3 30 2f 1f d
    1d 5 2a 5 1d 2 23 4 7 1 4 2a 9d 12 23 4 23 4 27 8 33 c a 1 e 1 6 1 1 1 a 1 e 1 6 1 1 3 33 c
    136 9 15 a 7 18 5 1 29 1 8 45 5 2 0 1 2b 1 1 3 0 2 16 a 16 9 1e 41 12 1 1 a 15 a 19 6 19 26
    37 6 1 40 3 1 1 5 7 1 2 1 1c 2a 1c 3 1c 23 7 1 1b 1b 35 a 15 a 12 d 11 6e 48 37 32 d 32 d 27
    22 1b 3 0 5 16 fa 29 1 1 3 1 10 5 32 2 3 1c a 0 8 15 2a 11 2e 14 1b 16 9 45 2b 4 a 38 9 0 d
    18 17 32 11 3 8 22 3 0 9 3f 1 3 9 1 a 0 1 0 23 11 1 21 2 0 6 3 3e 6 1 0 1 3 1 e 1 9 7 38 17
    3 1 7 2 1 2 15 1 6 1 1 1 4 3 7 2 1 2 1 3 0 6 0 5 6 1c 9 1 0 2 0 1 25 1 9 1 0 2 0 1 3 1 1 3 0
    1 0 2c 41 1 2 1 3 14 2 1e 41 2 1 1 0 b8 35 2 6 19 5 22 3e 1 0 3 0 3b 35 2 0 47 1a 2 d 15 6
    b9 38 67 3f 1f 7 2 0 2 7 1 1 1 1d 1 1 2 1 2 3 5d 7 2 2d 2 5 1 0 1 1 1b 32 2 9 11 47 5 0 12
    48 67 7 58 20 1f 8 1 2c 1 6 1 0 31 1d 2 15 1 d 49 6 1 1 1 2b 3 0 1 1 1 2 1 0 2 1 18 5 1 1 1
    24 1 1 1 3 1 0 17 2b 104 16 9 10 1 28 3 2 6f 0 4f 399 66 6e 11 c3 a4c 60 f 42f 11 5 19 f9a 5
    246 1ab9 2e 6d1 238 7 1e 11 4e 11 1d 12 2f 10 3 1f 14 5 12 1b0 2c d3 3f 20 18 2 18 2c 4a 4
    38 7 10 40 1 1 0 c 6 9 1cd5 29 1f 61 72 21fd 3 1 6 1 1 1 122 f 0 1d 2 2 0 e 3 8 18b 904 6a 5
    c 3 8 7 9 4 0 1761 54 1 46 1 1 2 0 2 1 2 3 1 b 1 0 1 6 1 40 1 3 2 7 1 6 1 1b 1 3 1 4 1 0 3 6
    1 153 2 18 1 18 1 1e 1 18 1 1e 1 18 1 1e 1 18 1 1e 1 18 1 7 734 1e 6 5 d5 6 1 10 2 6 1 1 1 4
    5 3d 21 0 70 2c a 6 10 0 141 1d 12 2b 1e4 1b e4 1d 2 0 cf 1e 1 15 8 1 e0 6 1 3 1 1 1 e 1 c4
    3b 43 3 0 3 0 4b4 3 1 1a 1 1 1 0 2 0 1 9 1 3 1 0 1 0 6 0 4 0 1 0 1 0 1 2 1 1 1 0 2 0 1 0 1 0
    1 0 1 0 1 1 1 0 2 3 1 6 1 3 1 3 1 0 1 9 1 10 5 2 1 4 1 10 274 19 6 19 6 19 e76 a6df 20 111d
    2 168d 2 1d30 f 26d 9a2 21d 5e2 134a 5 2129"

def uppercase : String :=
  "41 19 65 16 1 6 21 0 1 0 1 0 1 0 1 0 1 0 1 0 1 0 1 0 1 0 1 0 1 0 1 0 1 0 1 0 1 0 1 0 1 0 1 0
    1 0 1 0 1 0 1 0 1 0 1 0 1 0 1 0 1 0 2 0 1 0 1 0 1 0 1 0 1 0 1 0 1 0 2 0 1 0 1 0 1 0 1 0 1 0
    1 0 1 0 1 0 1 0 1 0 1 0 1 0 1 0 1 0 1 0 1 0 1 0 1 0 1 0 1 0 1 0 1 0 1 1 1 0 1 0 3 1 1 0 1 1
    1 2 2 3 1 1 1 2 3 1 1 1 1 0 1 0 1 1 1 0 2 0 1 1 1 2 1 0 1 1 3 0 7 0 2 0 2 0 2 0 1 0 1 0 1 0
    1 0 1 0 1 0 1 0 2 0 1 0 1 0 1 0 1 0 1 0 1 0 1 0 1 0 2 0 2 0 1 2 1 0 1 0 1 0 1 0 1 0 1 0 1 0
    1 0 1 0 1 0 1 0 1 0 1 0 1 0 1 0 1 0 1 0 1 0 1 0 1 0 1 0 1 0 1 0 1 0 1 0 1 0 1 0 1 0 1 0 7 1
    1 1 2 0 1 3 1 0 1 0 1 0 1 0 121 0 1 0 3 0 8 0 6 0 1 2 1 0 1 1 1 10 1 8 23 0 2 2 3 0 1 0 1 0
    1 0 1 0 1 0 1 0 1 0 1 0 1 0 1 0 1 0 5 0 2 0 1 1 2 32 30 0 1 0 1 0 1 0 1 0 1 0 1 0 1 0 1 0 1
    0 1 0 1 0 1 0 1 0 1 0 1 0 1 0 9 0 1 0 1 0 1 0 1 0 1 0 1 0 1 0 1 0 1 0 1 0 1 0 1 0 1 0 1 0 1
    0 1 0 1 0 1 0 1 0 1 0 1 0 1 0 1 0 1 0 1 0 1 0 1 1 1 0 1 0 1 0 1 0 1 0 1 0 2 0 1 0 1 0 1 0 1
    0 1 0 1 0 1 0 1 0 1 0 1 0 1 0 1 0 1 0 1 0 1 0 1 0 1 0 1 0 1 0 1 0 1 0 1 0 1 0 1 0 1 0 1 0 1
    0 1 0 1 0 1 0 1 0 1 0 1 0 1 0 1 0 1 0 1 0 1 0 1 0 1 0 1 0 1 0 1 0 1 0 1 0 1 0 1 0 2 25 b49
    25 1 0 5 0 2d2 55 893 0 6 2a 2 2 140 0 1 0 1 0 1 0 1 0 1 0 1 0 1 0 1 0 1 0 1 0 1 0 1 0 1 0 1
    0 1 0 1 0 1 0 1 0 1 0 1 0 1 0 1 0 1 0 1 0 1 0 1 0 1 0 1 0 1 0 1 0 1 0 1 0 1 0 1 0 1 0 1 0 1
    0 1 0 1 0 1 0 1 0 1 0 1 0 1 0 1 0 1 0 1 0 1 0 1 0 1 0 1 0 1 0 1 0 1 0 1 0 1 0 1 0 1 0 1 0 1
    0 1 0 1 0 1 0 1 0 1 0 1 0 1 0 1 0 1 0 1 0 1 0 1 0 1 0 1 0 9 0 1 0 1 0 1 0 1 0 1 0 1 0 1 0 1
    0 1 0 1 0 1 0 1 0 1 0 1 0 1 0 1 0 1 0 1 0 1 0 1 0 1 0 1 0 1 0 1 0 1 0 1 0 1 0 1 0 1 0 1 0 1
    0 1 0 1 0 1 0 1 0 1 0 1 0 1 0 1 0 1 0 1 0 1 0 1 0 1 0 1 0 1 0 1 0 1 0 9 7 8 5 a 7 8 7 8 5 b
    0 1 0 1 0 1 0 8 7 48 3 c 3 c 3 c 4 b 3 106 0 4 0 3 2 2 2 2 0 3 4 6 0 1 0 1 0 1 3 2 3 a 1 5 0
    1a f 13 0 332 19 730 2f 30 0 1 2 2 0 1 0 1 0 1 3 1 0 2 0 8 2 1 0 1 0 1 0 1 0 1 0 1 0 1 0 1 0
    1 0 1 0 1 0 1 0 1 0 1 0 1 0 1 0 1 0 1 0 1 0 1 0 1 0 1 0 1 0 1 0 1 0 1 0 1 0 1 0 1 0 1 0 1 0
    1 0 1 0 1 0 1 0 1 0 1 0 1 0 1 0 1 0 1 0 1 0 1 0 1 0 1 0 1 0 1 0 1 0 1 0 8 0 1 0 4 0 794d 0 1
    0 1 0 1 0 1 0 1 0 1 0 1 0 1 0 1 0 1 0 1 0 1 0 1 0 1 0 1 0 1 0 1 0 1 0 1 0 1 0 1 0 1 0 13 0 1
    0 1 0 1 0 1 0 1 0 1 0 1 0 1 0 1 0 1 0 1 0 1 0 1 0 87 0 1 0 1 0 1 0 1 0 1 0 1 0 3 0 1 0 1 0 1
    0 1 0 1 0 1 0 1 0 1 0 1 0 1 0 1 0 1 0 1 0 1 0 1 0 1 0 1 0 1 0 1 0 1 0 1 0 1 0 1 0 1 0 1 0 1
    0 1 0 1 0 1 0 1 0 a 0 1 0 1 1 1 0 1 0 1 0 1 0 4 0 1 0 2 0 1 0 3 0 1 0 1 0 1 0 1 0 1 0 1 0 1
    0 1 0 1 0 1 4 1 4 1 0 1 0 1 0 1 0 1 0 1 0 1 0 1 3 1 0 1 1 1 0 1 0 1 0 1 0 1 0 1 0 1 0 1 0 18
    0 572b 19 4c5 27 88 23 9c a 1 e 1 6 1 1 6ea 32 9d 15 b3a 1f 5580 1f 40 18 6547 19 1a 19 1a
    19 1a 0 1 1 2 0 2 1 2 3 1 7 1a 19 1a 1 1 3 2 7 1 6 1b 1 1 3 1 4 1 0 3 6 1b 19 1a 19 1a 19 1a
    19 1a 19 1a 19 1e 18 21 18 21 18 21 18 21 18 21 0 1135 21 80e 19 6 19 6 19"

def lowercase : String :=
  "61 19 2f 0 a 0 4 0 24 17 1 7 1 0 1 0 1 0 1 0 1 0 1 0 1 0 1 0 1 0 1 0 1 0 1 0 1 0 1 0 1 0 1 0
    1 0 1 0 1 0 1 0 1 0 1 0 1 0 1 0 1 0 1 0 1 0 1 1 1 0 1 0 1 0 1 0 1 0 1 0 1 0 1 1 1 0 1 0 1 0
    1 0 1 0 1 0 1 0 1 0 1 0 1 0 1 0 1 0 1 0 1 0 1 0 1 0 1 0 1 0 1 0 1 0 1 0 1 0 1 0 2 0 1 0 1 2
    2 0 1 0 2 0 3 1 4 0 2 0 3 2 2 0 2 0 1 0 1 0 2 0 1 1 1 0 2 0 3 0 1 0 2 1 2 2 6 0 2 0 2 0 1 0
    1 0 1 0 1 0 1 0 1 0 1 0 1 1 1 0 1 0 1 0 1 0 1 0 1 0 1 0 1 0 1 1 2 0 1 0 3 0 1 0 1 0 1 0 1 0
    1 0 1 0 1 0 1 0 1 0 1 0 1 0 1 0 1 0 1 0 1 0 1 0 1 0 1 0 1 0 1 0 1 0 1 0 1 0 1 0 1 0 1 0 1 0
    1 0 1 6 2 0 2 1 1 0 4 0 1 0 1 0 1 0 1 44 2 22 7 1 1e 4 60 0 2b 0 1 0 3 0 2 3 12 0 1b 22 1 1
    3 2 1 0 1 0 1 0 1 0 1 0 1 0 1 0 1 0 1 0 1 0 1 0 1 4 1 0 2 0 2 1 33 2f 1 0 1 0 1 0 1 0 1 0 1
    0 1 0 1 0 1 0 1 0 1 0 1 0 1 0 1 0 1 0 1 0 1 0 9 0 1 0 1 0 1 0 1 0 1 0 1 0 1 0 1 0 1 0 1 0 1
    0 1 0 1 0 1 0 1 0 1 0 1 0 1 0 1 0 1 0 1 0 1 0 1 0 1 0 1 0 1 0 2 0 1 0 1 0 1 0 1 0 1 0 1 1 1
    0 1 0 1 0 1 0 1 0 1 0 1 0 1 0 1 0 1 0 1 0 1 0 1 0 1 0 1 0 1 0 1 0 1 0 1 0 1 0 1 0 1 0 1 0 1
    0 1 0 1 0 1 0 1 0 1 0 1 0 1 0 1 0 1 0 1 0 1 0 1 0 1 0 1 0 1 0 1 0 1 0 1 0 1 0 1 0 1 0 1 0 1
    0 1 0 30 28 b47 2a 1 3 2f8 5 882 8 1 0 75 bf 41 0 1 0 1 0 1 0 1 0 1 0 1 0 1 0 1 0 1 0 1 0 1
    0 1 0 1 0 1 0 1 0 1 0 1 0 1 0 1 0 1 0 1 0 1 0 1 0 1 0 1 0 1 0 1 0 1 0 1 0 1 0 1 0 1 0 1 0 1
    0 1 0 1 0 1 0 1 0 1 0 1 0 1 0 1 0 1 0 1 0 1 0 1 0 1 0 1 0 1 0 1 0 1 0 1 0 1 0 1 0 1 0 1 0 1
    0 1 0 1 0 1 0 1 0 1 0 1 0 1 0 1 0 1 0 1 0 1 0 1 0 1 0 1 0 1 0 1 0 1 8 1 0 1 0 1 0 1 0 1 0 1
    0 1 0 1 0 1 0 1 0 1 0 1 0 1 0 1 0 1 0 1 0 1 0 1 0 1 0 1 0 1 0 1 0 1 0 1 0 1 0 1 0 1 0 1 0 1
    0 1 0 1 0 1 0 1 0 1 0 1 0 1 0 1 0 1 0 1 0 1 0 1 0 1 0 1 0 1 0 1 0 1 0 1 0 1 0 1 8 8 5 a 7 8
    7 8 5 a 7 8 7 8 d 2 7 8 7 8 7 8 4 1 1 6 0 3 2 1 1 8 3 2 1 8 7 a 2 1 1 79 0 d 0 10 c 6d 0 3 1
    3 0 1b 0 4 0 4 0 2 1 8 3 4 0 21 f 4 0 34b 19 746 2f 1 0 3 1 1 0 1 0 1 0 4 0 1 1 1 7 3 0 1 0
    1 0 1 0 1 0 1 0 1 0 1 0 1 0 1 0 1 0 1 0 1 0 1 0 1 0 1 0 1 0 1 0 1 0 1 0 1 0 1 0 1 0 1 0 1 0
    1 0 1 0 1 0 1 0 1 0 1 0 1 0 1 0 1 0 1 0 1 0 1 0 1 0 1 0 1 0 1 0 1 0 1 0 1 0 1 0 1 0 1 0 1 0
    1 0 1 1 7 0 1 0 4 0 c 25 1 0 5 0 7913 0 1 0 1 0 1 0 1 0 1 0 1 0 1 0 1 0 1 0 1 0 1 0 1 0 1 0
    1 0 1 0 1 0 1 0 1 0 1 0 1 0 1 0 1 0 13 0 1 0 1 0 1 0 1 0 1 0 1 0 1 0 1 0 1 0 1 0 1 0 1 0 1 2
    85 0 1 0 1 0 1 0 1 0 1 0 1 2 1 0 1 0 1 0 1 0 1 0 1 0 1 0 1 0 1 0 1 0 1 0 1 0 1 0 1 0 1 0 1 0
    1 0 1 0 1 0 1 0 1 0 1 0 1 0 1 0 1 0 1 0 1 0 1 0 1 0 1 0 1 9 1 0 1 0 2 0 1 0 1 0 1 0 1 0 4 0
    1 0 2 0 1 2 1 0 1 0 1 0 1 0 1 0 1 0 1 0 1 0 1 0 1 0 5 0 5 0 1 0 1 0 1 0 1 0 1 0 1 0 1 0 4 0
    1 0 2 0 1 0 1 0 1 0 1 0 1 0 1 0 1 0 15 3 1 0 1 2 335 2a 1 d 6 4f 4f40 6 c 4 429 19 4cd 27 88
    23 9b a 1 e 1 6 1 1 1c3 0 2 2 1 29 1 8 505 32 7d 15 b3a 1f 5580 1f 3b 18 6546 19 1a 6 1 11
    1a 19 1a 3 1 0 1 6 1 a 1a 19 1a 19 1a 19 1a 19 1a 19 1a 19 1a 19 1a 19 1a 1b 1c 18 1 5 1a 18
    1 5 1a 18 1 5 1a 18 1 5 1a 18 1 5 1 0 734 9 1 13 6 5 105 3d 8b4 21"

def whiteSpace : String :=
  "9 4 12 0 64 0 1a 0 15df 0 97f a 1d 1 5 0 2f 0 fa0 0"

def joinControl : String :=
  "200c 1"

def graphemeExtend : String :=
  "300 6f 113 6 107 2c 1 0 1 1 1 1 1 0 48 a 30 14 10 0 65 6 2 5 2 1 1 3 23 0 1e 1a 5b a 3a 8 9
    0 18 3 1 8 1 2 1 4 2b 2 3b 8 2a 17 1 1f 37 0 1 0 4 7 4 0 3 6 a 1 1d 0 3a 0 1 0 2 3 8 0 9 0 a
    1 1a 0 2 1 39 0 4 1 4 1 2 2 3 0 1e 1 3 0 b 1 39 0 4 4 1 1 4 0 14 1 16 5 1 0 3a 0 1 1 1 3 8 0
    7 2 a 1 1e 0 3b 0 1 0 c 0 9 0 28 0 3 0 37 0 1 2 5 2 1 3 7 1 b 1 1d 0 3a 0 2 1 1 0 3 2 1 3 7
    1 b 1 1c 1 39 1 1 0 2 3 8 0 9 0 a 1 1d 0 48 0 4 0 2 2 1 0 8 0 51 0 2 6 c 7 62 0 2 8 b 6 49 1
    1b 0 1 0 1 0 37 d 1 4 1 1 5 a 1 23 9 0 66 3 1 5 1 1 2 1 19 1 4 2 10 3 d 0 2 1 6 0 f 0 2bf 2
    3b2 3 1c 2 1d 1 1e 1 40 1 1 6 8 0 2 a 9 0 2d 2 1 0 75 1 22 0 76 2 4 1 9 0 6 2 db 1 2 0 3a 0
    1 6 1 0 1 0 2 7 6 9 2 0 30 2d 2 b 14 3 30 9 4 2 26 8 c 1 20 3 2 5 38 0 1 1 3 0 1 4 38 7 2 1
    98 2 1 c 1 6 4 0 6 0 3 1 c6 3f 20c 0 c3 20 bfe 2 8d 0 60 1f 22a 5 69 1 75d4 3 1 9 20 1 50 1
    110 0 3 0 4 0 19 1 5 0 97 1 1a 11 d 0 26 7 19 a 1 0 2c 2 30 0 2 3 2 1 2 0 24 0 43 5 2 1 2 1
    c 0 8 0 2f 0 33 0 1 2 2 1 5 1 1 0 2a 1 8 0 ee 0 2 0 4 0 4f30 0 2e1 f 10 f 16e 1 25d 0 e2 0
    95 4 686 2 1 1 5 3 28 2 4 0 a5 1 23d 3 41 4 13d 1 4d 5 46 a 31 3 7b 0 36 e 29 0 2 1 a 2 31 3
    2 1 7 0 3d 2 24 4 1 7 3e 0 c 1 34 8 1 0 8 3 2 0 5f 2 2 3 6 0 2 0 9d 0 3 7 15 1 39 1 1 0 1 0
    c 0 9 0 e 6 3 4 43 0 2 5 1 0 2 0 1 2 4 2 1 0 e 1 55 7 2 2 1 0 17 0 51 0 2 5 1 0 2 0 1 1 1 1
    eb 0 2 3 6 1 1 1 1b 1 55 7 2 0 1 1 6a 0 1 0 2 7 65 0 1 0 2 3 1 4 103 8 1 1 f5 0 a 3 4 0 90 3
    2 1 4 0 20 9 28 5 2 3 8 0 9 5 2 2 2e c 1 1 c6 0 1 2 1 0 c9 6 1 5 1 0 52 15 2 6 1 1 1 1 7a 5
    3 0 1 1 1 6 1 0 48 1 3 0 1 0 15b 1 b 1 34 4 5 2 17 0 14e5 0 6 e 2cc8 b 3 2 9c0 4 3b 6 418 0
    3f 3 51 0 b 1 4cab 1 1261 2d 2 16 21e 4 3 5 8 7 2 6 1e 3 94 2 7bb 36 4 31 8 0 e 0 16 4 1 e
    550 6 1 10 2 6 1 1 1 4 64 0 a0 6 177 0 3d 3 1fc 3 fe 1 f3 0 2 0 7 1 5 0 1da 6 6d 6 c16d5 5f
    80 ef"

/-- The gap behind the character before, and the character that the next one folds to. -/
def folding : String :=
  "41 61 0 62 0 63 0 64 0 65 0 66 0 67 0 68 0 69 0 6a 0 6b 0 6c 0 6d 0 6e 0 6f 0 70 0 71 0 72 0
    73 0 74 0 75 0 76 0 77 0 78 0 79 0 7a 5a 3bc a e0 0 e1 0 e2 0 e3 0 e4 0 e5 0 e6 0 e7 0 e8 0
    e9 0 ea 0 eb 0 ec 0 ed 0 ee 0 ef 0 f0 0 f1 0 f2 0 f3 0 f4 0 f5 0 f6 1 f8 0 f9 0 fa 0 fb 0 fc
    0 fd 0 fe 21 101 1 103 1 105 1 107 1 109 1 10b 1 10d 1 10f 1 111 1 113 1 115 1 117 1 119 1
    11b 1 11d 1 11f 1 121 1 123 1 125 1 127 1 129 1 12b 1 12d 1 12f 3 133 1 135 1 137 2 13a 1
    13c 1 13e 1 140 1 142 1 144 1 146 1 148 2 14b 1 14d 1 14f 1 151 1 153 1 155 1 157 1 159 1
    15b 1 15d 1 15f 1 161 1 163 1 165 1 167 1 169 1 16b 1 16d 1 16f 1 171 1 173 1 175 1 177 1 ff
    0 17a 1 17c 1 17e 1 73 1 253 0 183 1 185 1 254 0 188 1 256 0 257 0 18c 2 1dd 0 259 0 25b 0
    192 1 260 0 263 1 269 0 268 0 199 3 26f 0 272 1 275 0 1a1 1 1a3 1 1a5 1 280 0 1a8 1 283 2
    1ad 1 288 0 1b0 1 28a 0 28b 0 1b4 1 1b6 1 292 0 1b9 3 1bd 7 1c6 0 1c6 1 1c9 0 1c9 1 1cc 0
    1cc 1 1ce 1 1d0 1 1d2 1 1d4 1 1d6 1 1d8 1 1da 1 1dc 2 1df 1 1e1 1 1e3 1 1e5 1 1e7 1 1e9 1
    1eb 1 1ed 1 1ef 2 1f3 0 1f3 1 1f5 1 195 0 1bf 0 1f9 1 1fb 1 1fd 1 1ff 1 201 1 203 1 205 1
    207 1 209 1 20b 1 20d 1 20f 1 211 1 213 1 215 1 217 1 219 1 21b 1 21d 1 21f 1 19e 1 223 1
    225 1 227 1 229 1 22b 1 22d 1 22f 1 231 1 233 7 2c65 0 23c 1 19a 0 2c66 2 242 1 180 0 289 0
    28c 0 247 1 249 1 24b 1 24d 1 24f f6 3b9 2a 371 1 373 3 377 8 3f3 6 3ac 1 3ad 0 3ae 0 3af 1
    3cc 1 3cd 0 3ce 1 3b1 0 3b2 0 3b3 0 3b4 0 3b5 0 3b6 0 3b7 0 3b8 0 3b9 0 3ba 0 3bb 0 3bc 0
    3bd 0 3be 0 3bf 0 3c0 0 3c1 1 3c3 0 3c4 0 3c5 0 3c6 0 3c7 0 3c8 0 3c9 0 3ca 0 3cb 16 3c3 c
    3d7 0 3b2 0 3b8 3 3c6 0 3c0 1 3d9 1 3db 1 3dd 1 3df 1 3e1 1 3e3 1 3e5 1 3e7 1 3e9 1 3eb 1
    3ed 1 3ef 1 3ba 0 3c1 2 3b8 0 3b5 1 3f8 1 3f2 0 3fb 2 37b 0 37c 0 37d 0 450 0 451 0 452 0
    453 0 454 0 455 0 456 0 457 0 458 0 459 0 45a 0 45b 0 45c 0 45d 0 45e 0 45f 0 430 0 431 0
    432 0 433 0 434 0 435 0 436 0 437 0 438 0 439 0 43a 0 43b 0 43c 0 43d 0 43e 0 43f 0 440 0
    441 0 442 0 443 0 444 0 445 0 446 0 447 0 448 0 449 0 44a 0 44b 0 44c 0 44d 0 44e 0 44f 30
    461 1 463 1 465 1 467 1 469 1 46b 1 46d 1 46f 1 471 1 473 1 475 1 477 1 479 1 47b 1 47d 1
    47f 1 481 9 48b 1 48d 1 48f 1 491 1 493 1 495 1 497 1 499 1 49b 1 49d 1 49f 1 4a1 1 4a3 1
    4a5 1 4a7 1 4a9 1 4ab 1 4ad 1 4af 1 4b1 1 4b3 1 4b5 1 4b7 1 4b9 1 4bb 1 4bd 1 4bf 1 4cf 0
    4c2 1 4c4 1 4c6 1 4c8 1 4ca 1 4cc 1 4ce 2 4d1 1 4d3 1 4d5 1 4d7 1 4d9 1 4db 1 4dd 1 4df 1
    4e1 1 4e3 1 4e5 1 4e7 1 4e9 1 4eb 1 4ed 1 4ef 1 4f1 1 4f3 1 4f5 1 4f7 1 4f9 1 4fb 1 4fd 1
    4ff 1 501 1 503 1 505 1 507 1 509 1 50b 1 50d 1 50f 1 511 1 513 1 515 1 517 1 519 1 51b 1
    51d 1 51f 1 521 1 523 1 525 1 527 1 529 1 52b 1 52d 1 52f 2 561 0 562 0 563 0 564 0 565 0
    566 0 567 0 568 0 569 0 56a 0 56b 0 56c 0 56d 0 56e 0 56f 0 570 0 571 0 572 0 573 0 574 0
    575 0 576 0 577 0 578 0 579 0 57a 0 57b 0 57c 0 57d 0 57e 0 57f 0 580 0 581 0 582 0 583 0
    584 0 585 0 586 b49 2d00 0 2d01 0 2d02 0 2d03 0 2d04 0 2d05 0 2d06 0 2d07 0 2d08 0 2d09 0
    2d0a 0 2d0b 0 2d0c 0 2d0d 0 2d0e 0 2d0f 0 2d10 0 2d11 0 2d12 0 2d13 0 2d14 0 2d15 0 2d16 0
    2d17 0 2d18 0 2d19 0 2d1a 0 2d1b 0 2d1c 0 2d1d 0 2d1e 0 2d1f 0 2d20 0 2d21 0 2d22 0 2d23 0
    2d24 0 2d25 1 2d27 5 2d2d 32a 13f0 0 13f1 0 13f2 0 13f3 0 13f4 0 13f5 882 432 0 434 0 43e 0
    441 0 442 0 442 0 44a 0 463 0 a64b 7 10d0 0 10d1 0 10d2 0 10d3 0 10d4 0 10d5 0 10d6 0 10d7 0
    10d8 0 10d9 0 10da 0 10db 0 10dc 0 10dd 0 10de 0 10df 0 10e0 0 10e1 0 10e2 0 10e3 0 10e4 0
    10e5 0 10e6 0 10e7 0 10e8 0 10e9 0 10ea 0 10eb 0 10ec 0 10ed 0 10ee 0 10ef 0 10f0 0 10f1 0
    10f2 0 10f3 0 10f4 0 10f5 0 10f6 0 10f7 0 10f8 0 10f9 0 10fa 2 10fd 0 10fe 0 10ff 140 1e01 1
    1e03 1 1e05 1 1e07 1 1e09 1 1e0b 1 1e0d 1 1e0f 1 1e11 1 1e13 1 1e15 1 1e17 1 1e19 1 1e1b 1
    1e1d 1 1e1f 1 1e21 1 1e23 1 1e25 1 1e27 1 1e29 1 1e2b 1 1e2d 1 1e2f 1 1e31 1 1e33 1 1e35 1
    1e37 1 1e39 1 1e3b 1 1e3d 1 1e3f 1 1e41 1 1e43 1 1e45 1 1e47 1 1e49 1 1e4b 1 1e4d 1 1e4f 1
    1e51 1 1e53 1 1e55 1 1e57 1 1e59 1 1e5b 1 1e5d 1 1e5f 1 1e61 1 1e63 1 1e65 1 1e67 1 1e69 1
    1e6b 1 1e6d 1 1e6f 1 1e71 1 1e73 1 1e75 1 1e77 1 1e79 1 1e7b 1 1e7d 1 1e7f 1 1e81 1 1e83 1
    1e85 1 1e87 1 1e89 1 1e8b 1 1e8d 1 1e8f 1 1e91 1 1e93 1 1e95 6 1e61 2 df 1 1ea1 1 1ea3 1
    1ea5 1 1ea7 1 1ea9 1 1eab 1 1ead 1 1eaf 1 1eb1 1 1eb3 1 1eb5 1 1eb7 1 1eb9 1 1ebb 1 1ebd 1
    1ebf 1 1ec1 1 1ec3 1 1ec5 1 1ec7 1 1ec9 1 1ecb 1 1ecd 1 1ecf 1 1ed1 1 1ed3 1 1ed5 1 1ed7 1
    1ed9 1 1edb 1 1edd 1 1edf 1 1ee1 1 1ee3 1 1ee5 1 1ee7 1 1ee9 1 1eeb 1 1eed 1 1eef 1 1ef1 1
    1ef3 1 1ef5 1 1ef7 1 1ef9 1 1efb 1 1efd 1 1eff 9 1f00 0 1f01 0 1f02 0 1f03 0 1f04 0 1f05 0
    1f06 0 1f07 8 1f10 0 1f11 0 1f12 0 1f13 0 1f14 0 1f15 a 1f20 0 1f21 0 1f22 0 1f23 0 1f24 0
    1f25 0 1f26 0 1f27 8 1f30 0 1f31 0 1f32 0 1f33 0 1f34 0 1f35 0 1f36 0 1f37 8 1f40 0 1f41 0
    1f42 0 1f43 0 1f44 0 1f45 b 1f51 1 1f53 1 1f55 1 1f57 8 1f60 0 1f61 0 1f62 0 1f63 0 1f64 0
    1f65 0 1f66 0 1f67 18 1f80 0 1f81 0 1f82 0 1f83 0 1f84 0 1f85 0 1f86 0 1f87 8 1f90 0 1f91 0
    1f92 0 1f93 0 1f94 0 1f95 0 1f96 0 1f97 8 1fa0 0 1fa1 0 1fa2 0 1fa3 0 1fa4 0 1fa5 0 1fa6 0
    1fa7 8 1fb0 0 1fb1 0 1f70 0 1f71 0 1fb3 1 3b9 9 1f72 0 1f73 0 1f74 0 1f75 0 1fc3 b 1fd0 0
    1fd1 0 1f76 0 1f77 c 1fe0 0 1fe1 0 1f7a 0 1f7b 0 1fe5 b 1f78 0 1f79 0 1f7c 0 1f7d 0 1ff3 129
    3c9 3 6b 0 e5 6 214e 2d 2170 0 2171 0 2172 0 2173 0 2174 0 2175 0 2176 0 2177 0 2178 0 2179
    0 217a 0 217b 0 217c 0 217d 0 217e 0 217f 13 2184 332 24d0 0 24d1 0 24d2 0 24d3 0 24d4 0
    24d5 0 24d6 0 24d7 0 24d8 0 24d9 0 24da 0 24db 0 24dc 0 24dd 0 24de 0 24df 0 24e0 0 24e1 0
    24e2 0 24e3 0 24e4 0 24e5 0 24e6 0 24e7 0 24e8 0 24e9 730 2c30 0 2c31 0 2c32 0 2c33 0 2c34 0
    2c35 0 2c36 0 2c37 0 2c38 0 2c39 0 2c3a 0 2c3b 0 2c3c 0 2c3d 0 2c3e 0 2c3f 0 2c40 0 2c41 0
    2c42 0 2c43 0 2c44 0 2c45 0 2c46 0 2c47 0 2c48 0 2c49 0 2c4a 0 2c4b 0 2c4c 0 2c4d 0 2c4e 0
    2c4f 0 2c50 0 2c51 0 2c52 0 2c53 0 2c54 0 2c55 0 2c56 0 2c57 0 2c58 0 2c59 0 2c5a 0 2c5b 0
    2c5c 0 2c5d 0 2c5e 0 2c5f 30 2c61 1 26b 0 1d7d 0 27d 2 2c68 1 2c6a 1 2c6c 1 251 0 271 0 250
    0 252 1 2c73 2 2c76 8 23f 0 240 0 2c81 1 2c83 1 2c85 1 2c87 1 2c89 1 2c8b 1 2c8d 1 2c8f 1
    2c91 1 2c93 1 2c95 1 2c97 1 2c99 1 2c9b 1 2c9d 1 2c9f 1 2ca1 1 2ca3 1 2ca5 1 2ca7 1 2ca9 1
    2cab 1 2cad 1 2caf 1 2cb1 1 2cb3 1 2cb5 1 2cb7 1 2cb9 1 2cbb 1 2cbd 1 2cbf 1 2cc1 1 2cc3 1
    2cc5 1 2cc7 1 2cc9 1 2ccb 1 2ccd 1 2ccf 1 2cd1 1 2cd3 1 2cd5 1 2cd7 1 2cd9 1 2cdb 1 2cdd 1
    2cdf 1 2ce1 1 2ce3 8 2cec 1 2cee 4 2cf3 794d a641 1 a643 1 a645 1 a647 1 a649 1 a64b 1 a64d
    1 a64f 1 a651 1 a653 1 a655 1 a657 1 a659 1 a65b 1 a65d 1 a65f 1 a661 1 a663 1 a665 1 a667 1
    a669 1 a66b 1 a66d 13 a681 1 a683 1 a685 1 a687 1 a689 1 a68b 1 a68d 1 a68f 1 a691 1 a693 1
    a695 1 a697 1 a699 1 a69b 87 a723 1 a725 1 a727 1 a729 1 a72b 1 a72d 1 a72f 3 a733 1 a735 1
    a737 1 a739 1 a73b 1 a73d 1 a73f 1 a741 1 a743 1 a745 1 a747 1 a749 1 a74b 1 a74d 1 a74f 1
    a751 1 a753 1 a755 1 a757 1 a759 1 a75b 1 a75d 1 a75f 1 a761 1 a763 1 a765 1 a767 1 a769 1
    a76b 1 a76d 1 a76f a a77a 1 a77c 1 1d79 0 a77f 1 a781 1 a783 1 a785 1 a787 4 a78c 1 265 2
    a791 1 a793 3 a797 1 a799 1 a79b 1 a79d 1 a79f 1 a7a1 1 a7a3 1 a7a5 1 a7a7 1 a7a9 1 266 0
    25c 0 261 0 26c 0 26a 1 29e 0 287 0 29d 0 ab53 0 a7b5 1 a7b7 1 a7b9 1 a7bb 1 a7bd 1 a7bf 1
    a7c1 1 a7c3 1 a794 0 282 0 1d8e 0 a7c8 1 a7ca 6 a7d1 5 a7d7 1 a7d9 1c a7f6 37a 13a0 0 13a1 0
    13a2 0 13a3 0 13a4 0 13a5 0 13a6 0 13a7 0 13a8 0 13a9 0 13aa 0 13ab 0 13ac 0 13ad 0 13ae 0
    13af 0 13b0 0 13b1 0 13b2 0 13b3 0 13b4 0 13b5 0 13b6 0 13b7 0 13b8 0 13b9 0 13ba 0 13bb 0
    13bc 0 13bd 0 13be 0 13bf 0 13c0 0 13c1 0 13c2 0 13c3 0 13c4 0 13c5 0 13c6 0 13c7 0 13c8 0
    13c9 0 13ca 0 13cb 0 13cc 0 13cd 0 13ce 0 13cf 0 13d0 0 13d1 0 13d2 0 13d3 0 13d4 0 13d5 0
    13d6 0 13d7 0 13d8 0 13d9 0 13da 0 13db 0 13dc 0 13dd 0 13de 0 13df 0 13e0 0 13e1 0 13e2 0
    13e3 0 13e4 0 13e5 0 13e6 0 13e7 0 13e8 0 13e9 0 13ea 0 13eb 0 13ec 0 13ed 0 13ee 0 13ef
    5361 ff41 0 ff42 0 ff43 0 ff44 0 ff45 0 ff46 0 ff47 0 ff48 0 ff49 0 ff4a 0 ff4b 0 ff4c 0
    ff4d 0 ff4e 0 ff4f 0 ff50 0 ff51 0 ff52 0 ff53 0 ff54 0 ff55 0 ff56 0 ff57 0 ff58 0 ff59 0
    ff5a 4c5 10428 0 10429 0 1042a 0 1042b 0 1042c 0 1042d 0 1042e 0 1042f 0 10430 0 10431 0
    10432 0 10433 0 10434 0 10435 0 10436 0 10437 0 10438 0 10439 0 1043a 0 1043b 0 1043c 0
    1043d 0 1043e 0 1043f 0 10440 0 10441 0 10442 0 10443 0 10444 0 10445 0 10446 0 10447 0
    10448 0 10449 0 1044a 0 1044b 0 1044c 0 1044d 0 1044e 0 1044f 88 104d8 0 104d9 0 104da 0
    104db 0 104dc 0 104dd 0 104de 0 104df 0 104e0 0 104e1 0 104e2 0 104e3 0 104e4 0 104e5 0
    104e6 0 104e7 0 104e8 0 104e9 0 104ea 0 104eb 0 104ec 0 104ed 0 104ee 0 104ef 0 104f0 0
    104f1 0 104f2 0 104f3 0 104f4 0 104f5 0 104f6 0 104f7 0 104f8 0 104f9 0 104fa 0 104fb 9c
    10597 0 10598 0 10599 0 1059a 0 1059b 0 1059c 0 1059d 0 1059e 0 1059f 0 105a0 0 105a1 1
    105a3 0 105a4 0 105a5 0 105a6 0 105a7 0 105a8 0 105a9 0 105aa 0 105ab 0 105ac 0 105ad 0
    105ae 0 105af 0 105b0 0 105b1 1 105b3 0 105b4 0 105b5 0 105b6 0 105b7 0 105b8 0 105b9 1
    105bb 0 105bc 6ea 10cc0 0 10cc1 0 10cc2 0 10cc3 0 10cc4 0 10cc5 0 10cc6 0 10cc7 0 10cc8 0
    10cc9 0 10cca 0 10ccb 0 10ccc 0 10ccd 0 10cce 0 10ccf 0 10cd0 0 10cd1 0 10cd2 0 10cd3 0
    10cd4 0 10cd5 0 10cd6 0 10cd7 0 10cd8 0 10cd9 0 10cda 0 10cdb 0 10cdc 0 10cdd 0 10cde 0
    10cdf 0 10ce0 0 10ce1 0 10ce2 0 10ce3 0 10ce4 0 10ce5 0 10ce6 0 10ce7 0 10ce8 0 10ce9 0
    10cea 0 10ceb 0 10cec 0 10ced 0 10cee 0 10cef 0 10cf0 0 10cf1 0 10cf2 bed 118c0 0 118c1 0
    118c2 0 118c3 0 118c4 0 118c5 0 118c6 0 118c7 0 118c8 0 118c9 0 118ca 0 118cb 0 118cc 0
    118cd 0 118ce 0 118cf 0 118d0 0 118d1 0 118d2 0 118d3 0 118d4 0 118d5 0 118d6 0 118d7 0
    118d8 0 118d9 0 118da 0 118db 0 118dc 0 118dd 0 118de 0 118df 5580 16e60 0 16e61 0 16e62 0
    16e63 0 16e64 0 16e65 0 16e66 0 16e67 0 16e68 0 16e69 0 16e6a 0 16e6b 0 16e6c 0 16e6d 0
    16e6e 0 16e6f 0 16e70 0 16e71 0 16e72 0 16e73 0 16e74 0 16e75 0 16e76 0 16e77 0 16e78 0
    16e79 0 16e7a 0 16e7b 0 16e7c 0 16e7d 0 16e7e 0 16e7f 7aa0 1e922 0 1e923 0 1e924 0 1e925 0
    1e926 0 1e927 0 1e928 0 1e929 0 1e92a 0 1e92b 0 1e92c 0 1e92d 0 1e92e 0 1e92f 0 1e930 0
    1e931 0 1e932 0 1e933 0 1e934 0 1e935 0 1e936 0 1e937 0 1e938 0 1e939 0 1e93a 0 1e93b 0
    1e93c 0 1e93d 0 1e93e 0 1e93f 0 1e940 0 1e941 0 1e942 0 1e943"

def scripts : List (String × String × String) :=
  [("Adlam", "Adlm",
      "1e900 4b 4 9 4 1"),
    ("Caucasian_Albanian", "Aghb",
      "10530 33 b 0"),
    ("Ahom", "Ahom",
      "11700 1a 2 e 4 16"),
    ("Arabic", "Arab",
      "600 4 1 5 1 d 1 2 1 1f 1 9 b 19 1 6b 1 21 50 2f f0 21 5 4a 1 1c f250 1ed 2 8f 20 f 70 4 1 86
    f63 1e 43 5 8 8 21 5 df00 3 1 1a 1 1 1 0 2 0 1 9 1 3 1 0 1 0 6 0 4 0 1 0 1 0 1 2 1 1 1 0 2 0
    1 0 1 0 1 0 1 0 1 1 1 0 2 3 1 6 1 3 1 3 1 0 1 9 1 10 5 2 1 4 1 10 34 1"),
    ("Imperial_Aramaic", "Armi",
      "10840 15 1 8"),
    ("Armenian", "Armn",
      "531 25 2 31 2 2 f583 4"),
    ("Avestan", "Avst",
      "10b00 35 3 6"),
    ("Balinese", "Bali",
      "1b00 4c 1 31"),
    ("Bamum", "Bamu",
      "a6a0 57 c108 238"),
    ("Bassa_Vah", "Bass",
      "16ad0 1d 2 5"),
    ("Batak", "Batk",
      "1bc0 33 8 3"),
    ("Bengali", "Beng",
      "980 3 1 7 2 1 2 15 1 6 1 0 3 3 2 8 2 1 2 3 8 0 4 1 1 4 2 18"),
    ("Bhaiksuki", "Bhks",
      "11c00 8 1 2c 1 d a 1c"),
    ("Bopomofo", "Bopo",
      "2ea 1 2e19 2a 70 1f"),
    ("Brahmi", "Brah",
      "11000 4d 4 23 9 0"),
    ("Braille", "Brai",
      "2800 ff"),
    ("Buginese", "Bugi",
      "1a00 1b 2 1"),
    ("Buhid", "Buhd",
      "1740 13"),
    ("Chakma", "Cakm",
      "11100 34 1 11"),
    ("Canadian_Aboriginal", "Cans",
      "1400 27f 230 45 101ba f"),
    ("Carian", "Cari",
      "102a0 30"),
    ("Cham", "Cham",
      "aa00 36 9 d 2 9 2 3"),
    ("Cherokee", "Cher",
      "13a0 55 2 5 9772 4f"),
    ("Chorasmian", "Chrs",
      "10fb0 1b"),
    ("Coptic", "Copt",
      "3e2 d 2890 73 5 6"),
    ("Cypro_Minoan", "Cpmn",
      "12f90 62"),
    ("Cypriot", "Cprt",
      "10800 5 2 0 1 2b 1 1 3 0 2 0"),
    ("Cyrillic", "Cyrl",
      "400 84 2 a8 1750 a a0 0 4c 0 1067 1f 7840 5f 578e 1 e200 3d 21 0"),
    ("Devanagari", "Deva",
      "900 50 4 e 2 19 9f60 1f 7200 9"),
    ("Dives_Akuru", "Diak",
      "11900 6 2 0 2 7 1 1 1 1d 1 1 2 b 9 9"),
    ("Dogra", "Dogr",
      "11800 3b"),
    ("Deseret", "Dsrt",
      "10400 4f"),
    ("Duployan", "Dupl",
      "1bc00 6a 5 c 3 8 7 9 2 3"),
    ("Egyptian_Hieroglyphs", "Egyp",
      "13000 455 a f9a"),
    ("Elbasan", "Elba",
      "10500 27"),
    ("Elymaic", "Elym",
      "10fe0 16"),
    ("Ethiopic", "Ethi",
      "1200 48 1 3 2 6 1 0 1 3 2 28 1 3 2 20 1 3 2 6 1 0 1 3 2 e 1 38 1 3 2 42 2 1f 3 19 19e6 16 9
    6 1 6 1 6 1 6 1 6 1 6 1 6 1 6 7d22 5 2 5 2 5 9 6 1 6 13cb1 6 1 3 1 1 1 e"),
    ("Georgian", "Geor",
      "10a0 25 1 0 5 0 2 2a 1 3 b90 2a 2 2 1040 25 1 0 5 0"),
    ("Glagolitic", "Glag",
      "2c00 5f 1b3a0 6 1 10 2 6 1 1 1 4"),
    ("Gunjala_Gondi", "Gong",
      "11d60 5 1 1 1 24 1 1 1 5 7 9"),
    ("Masaram_Gondi", "Gonm",
      "11d00 6 1 1 1 2b 3 0 1 1 1 8 8 9"),
    ("Gothic", "Goth",
      "10330 1a"),
    ("Grantha", "Gran",
      "11300 3 1 7 2 1 2 15 1 6 1 1 1 4 2 8 2 1 2 2 2 0 6 0 5 6 2 6 3 4"),
    ("Greek", "Grek",
      "370 3 1 2 2 3 1 0 4 0 1 0 1 2 1 0 1 13 1 3e e f 1926 4 32 4 4 4 54 0 140 15 2 5 2 25 2 5 2 7
    1 0 1 0 1 0 1 1e 2 34 1 e 1 d 2 5 1 12 2 2 1 8 127 0 8a3e 0 55da 4e 11 0 d05f 45"),
    ("Gujarati", "Gujr",
      "a81 2 1 8 1 2 1 15 1 6 1 1 1 4 2 9 1 2 1 2 2 0 f 3 2 b 7 6"),
    ("Gurmukhi", "Guru",
      "a01 2 1 5 4 1 2 15 1 6 1 1 1 1 1 1 2 0 1 4 4 1 2 2 3 0 7 3 1 0 7 10"),
    ("Hangul", "Hang",
      "1100 ff 1e2e 1 101 5d 71 1e 41 1e 76e1 1c 283 2ba3 c 16 4 30 27a4 1e 3 5 2 5 2 5 2 2"),
    ("Han", "Hani",
      "2e80 19 1 58 c d5 2f 0 1 0 19 8 e 3 3c4 19bf 40 51ff 5900 16d 2 69 7508 1 c 6 9009 a6df 20
    111d 2 168d 2 1d30 f 26d 9a2 21d 5e2 134a 5 2129"),
    ("Hanunoo", "Hano",
      "1720 14"),
    ("Hatran", "Hatr",
      "108e0 12 1 1 5 4"),
    ("Hebrew", "Hebr",
      "591 36 8 1a 4 5 f528 19 1 4 1 0 1 1 1 1 1 9"),
    ("Hiragana", "Hira",
      "3041 55 6 2 17f61 11e 12 0 1d 2 40ad 0"),
    ("Anatolian_Hieroglyphs", "Hluw",
      "14400 246"),
    ("Pahawh_Hmong", "Hmng",
      "16b00 45 a 9 1 6 1 14 5 12"),
    ("Nyiakeng_Puachue_Hmong", "Hmnp",
      "1e100 2c 3 d 2 9 4 1"),
    ("Old_Hungarian", "Hung",
      "10c80 32 d 32 7 5"),
    ("Old_Italic", "Ital",
      "10300 23 9 2"),
    ("Javanese", "Java",
      "a980 4d 2 9 4 1"),
    ("Kayah_Li", "Kali",
      "a900 2d 1 0"),
    ("Katakana", "Kana",
      "30a1 59 2 2 f0 f d0 2e 1 57 cc0e 9 1 2c b052 3 1 6 1 1 1 0 11f 2 32 0 e 3"),
    ("Kawi", "Kawi",
      "11f00 10 1 28 3 1c"),
    ("Kharoshthi", "Khar",
      "10a00 3 1 1 5 7 1 2 1 1c 2 2 4 9 7 8"),
    ("Khmer", "Khmr",
      "1780 5d 2 9 6 9 1e6 1f"),
    ("Khojki", "Khoj",
      "11200 11 1 2e"),
    ("Khitan_Small_Script", "Kits",
      "16fe4 0 1b1b 1d5 29 0"),
    ("Kannada", "Knda",
      "c80 c 1 2 1 16 1 9 1 4 2 8 1 2 1 3 7 1 5 2 1 3 2 9 1 2"),
    ("Kaithi", "Kthi",
      "11080 42 a 0"),
    ("Tai_Tham", "Lana",
      "1a20 3e 1 1c 2 a 6 9 6 d"),
    ("Lao", "Laoo",
      "e81 1 1 0 1 4 1 17 1 0 1 16 2 4 1 0 1 6 1 9 2 3"),
    ("Latin", "Latn",
      "41 19 6 19 2f 0 f 0 5 16 1 1e 1 1c0 27 4 1a1b 25 6 30 5 3 5 c 1 45 41 ff 171 0 d 0 10 c 8d 1
    6 0 1b 0 11 28 ad7 1f 7aa2 65 3 51 14 e 330 2a 1 8 1 3 4f96 6 41a 19 6 19 825 5 1 29 1 8
    d745 1e 6 5"),
    ("Lepcha", "Lepc",
      "1c00 37 3 e 3 2"),
    ("Limbu", "Limb",
      "1900 1e 1 b 4 b 4 0 3 b"),
    ("Linear_A", "Lina",
      "10600 136 9 15 a 7"),
    ("Linear_B", "Linb",
      "10000 b 1 19 1 12 1 1 1 e 2 d 22 7a"),
    ("Lisu", "Lisu",
      "a4d0 2f 7ab0 0"),
    ("Lycian", "Lyci",
      "10280 1c"),
    ("Lydian", "Lydi",
      "10920 19 5 0"),
    ("Mahajani", "Mahj",
      "11150 26"),
    ("Makasar", "Maka",
      "11ee0 18"),
    ("Mandaic", "Mand",
      "840 1b 2 0"),
    ("Manichaean", "Mani",
      "10ac0 26 4 b"),
    ("Marchen", "Marc",
      "11c70 1f 2 15 1 d"),
    ("Medefaidrin", "Medf",
      "16e40 5a"),
    ("Mende_Kikakui", "Mend",
      "1e800 c4 2 f"),
    ("Meroitic_Cursive", "Merc",
      "109a0 17 4 13 2 2d"),
    ("Meroitic_Hieroglyphs", "Mero",
      "10980 1f"),
    ("Malayalam", "Mlym",
      "d00 c 1 2 1 32 1 2 1 5 4 f 2 19"),
    ("Modi", "Modi",
      "11600 44 b 9"),
    ("Mongolian", "Mong",
      "1800 1 2 0 1 13 6 58 7 2a fdb5 c"),
    ("Mro", "Mroo",
      "16a40 1e 1 9 4 1"),
    ("Meetei_Mayek", "Mtei",
      "aae0 16 c9 2d 2 9"),
    ("Multani", "Mult",
      "11280 6 1 0 1 3 1 e 1 a"),
    ("Myanmar", "Mymr",
      "1000 9f 9940 1e 61 1f 6c50 13"),
    ("Nag_Mundari", "Nagm",
      "1e4d0 29"),
    ("Nandinagari", "Nand",
      "119a0 7 2 2d 2 a"),
    ("Old_North_Arabian", "Narb",
      "10a80 1f"),
    ("Nabataean", "Nbat",
      "10880 1e 8 8"),
    ("Newa", "Newa",
      "11400 5b 1 4"),
    ("Nko", "Nkoo",
      "7c0 3a 2 2"),
    ("Nushu", "Nshu",
      "16fe1 0 418e 18b"),
    ("Ogham", "Ogam",
      "1680 1c"),
    ("Ol_Chiki", "Olck",
      "1c50 2f"),
    ("Old_Turkic", "Orkh",
      "10c00 48"),
    ("Oriya", "Orya",
      "b01 2 1 7 2 1 2 15 1 6 1 1 1 4 2 8 2 1 2 2 7 2 4 1 1 4 2 11"),
    ("Osage", "Osge",
      "104b0 23 4 23"),
    ("Osmanya", "Osma",
      "10480 1d 2 9"),
    ("Old_Uyghur", "Ougr",
      "10f70 19"),
    ("Palmyrene", "Palm",
      "10860 1f"),
    ("Pau_Cin_Hau", "Pauc",
      "11ac0 38"),
    ("Old_Permic", "Perm",
      "10350 2a"),
    ("Phags_Pa", "Phag",
      "a840 37"),
    ("Inscriptional_Pahlavi", "Phli",
      "10b60 12 5 7"),
    ("Psalter_Pahlavi", "Phlp",
      "10b80 11 7 3 c 6"),
    ("Phoenician", "Phnx",
      "10900 1b 3 0"),
    ("Miao", "Plrd",
      "16f00 4a 4 38 7 10"),
    ("Inscriptional_Parthian", "Prti",
      "10b40 15 2 7"),
    ("Rejang", "Rjng",
      "a930 23 b 0"),
    ("Hanifi_Rohingya", "Rohg",
      "10d00 27 8 9"),
    ("Runic", "Runr",
      "16a0 4a 3 a"),
    ("Samaritan", "Samr",
      "800 2d 2 e"),
    ("Old_South_Arabian", "Sarb",
      "10a60 1f"),
    ("Saurashtra", "Saur",
      "a880 45 8 b"),
    ("SignWriting", "Sgnw",
      "1d800 28b f 4 1 e"),
    ("Shavian", "Shaw",
      "10450 2f"),
    ("Sharada", "Shrd",
      "11180 5f 980 7"),
    ("Siddham", "Sidd",
      "11580 35 2 25"),
    ("Khudawadi", "Sind",
      "112b0 3a 5 9"),
    ("Sinhala", "Sinh",
      "d81 2 1 11 3 17 1 8 1 0 2 6 3 0 4 5 1 0 1 7 6 9 2 2 103ec 13"),
    ("Sogdian", "Sogd",
      "10f30 29"),
    ("Old_Sogdian", "Sogo",
      "10f00 27"),
    ("Sora_Sompeng", "Sora",
      "110d0 18 7 9"),
    ("Soyombo", "Soyo",
      "11a50 52"),
    ("Sundanese", "Sund",
      "1b80 3f 100 7"),
    ("Syloti_Nagri", "Sylo",
      "a800 2c"),
    ("Syriac", "Syrc",
      "700 d 1 3b 2 2 110 a"),
    ("Tagbanwa", "Tagb",
      "1760 c 1 2 1 1"),
    ("Takri", "Takr",
      "11680 39 6 9"),
    ("Tai_Le", "Tale",
      "1950 1d 2 4"),
    ("New_Tai_Lue", "Talu",
      "1980 2b 4 19 6 a 3 1"),
    ("Tamil", "Taml",
      "b82 1 1 5 3 2 1 3 3 1 1 0 1 1 3 1 3 2 3 b 4 4 3 2 1 3 2 0 6 0 e 14 113c5 31 d 0"),
    ("Tangut", "Tang",
      "16fe0 0 1f 1aff 200 1e 61 72"),
    ("Tai_Viet", "Tavt",
      "aa80 42 18 4"),
    ("Telugu", "Telu",
      "c00 c 1 2 1 16 1 f 2 8 1 2 1 3 7 1 1 2 1 1 2 3 2 9 7 8"),
    ("Tifinagh", "Tfng",
      "2d30 37 7 1 e 0"),
    ("Tagalog", "Tglg",
      "1700 15 9 0"),
    ("Thaana", "Thaa",
      "780 31"),
    ("Thai", "Thai",
      "e01 39 5 1b"),
    ("Tibetan", "Tibt",
      "f00 47 1 23 4 26 1 23 1 e 1 6 4 1"),
    ("Tirhuta", "Tirh",
      "11480 47 8 9"),
    ("Tangsa", "Tnsa",
      "16a70 4e 1 9"),
    ("Toto", "Toto",
      "1e290 1e"),
    ("Ugaritic", "Ugar",
      "10380 1d 1 0"),
    ("Vai", "Vaii",
      "a500 12b"),
    ("Vithkuqi", "Vith",
      "10570 a 1 e 1 6 1 1 1 a 1 e 1 6 1 1"),
    ("Warang_Citi", "Wara",
      "118a0 52 c 0"),
    ("Wancho", "Wcho",
      "1e2c0 39 5 0"),
    ("Old_Persian", "Xpeo",
      "103a0 23 4 d"),
    ("Cuneiform", "Xsux",
      "12000 399 66 6e 1 4 b c3"),
    ("Yezidi", "Yezi",
      "10e80 29 1 2 2 1"),
    ("Yi", "Yiii",
      "a000 48c 3 36"),
    ("Zanabazar_Square", "Zanb",
      "11a00 47"),
    ("Inherited", "Zinh",
      "300 6f 115 1 1c4 a 1a 0 2e0 3 115b 2d 2 b 1e4 2 1 c 1 6 4 0 6 0 3 1 c6 3f 20c 1 c2 20 f39 3
    6b 1 cd65 f 10 d 3cf 0 e2 0 105a 0 bbc4 2d 2 16 220 2 11 7 2 6 1e 3 c2f52 ef"),
    ("Common", "Zyyy",
      "0 40 1a 5 1a 2e 1 e 1 4 17 0 1f 0 1c1 26 5 4 2 13 74 0 9 0 6 0 1 0 27d 0 6 0 e 0 3 0 20 0 9c
    0 204 0 81 1 4d9 0 195 3 122 0 5ef 2 47 1 cb 1 1 0 4cd 0 d 0 7 3 1 5 1 2 2 0 305 b 2 56 1 a
    3 a 1 e 11 21 3e 25 1 2 2 5 1 1a 1 10 29 2 4 299 16 a 15 39f 100 273 2 89 200 5d 192 14 1 0
    1 18 f 7 4 3 5b 1 3 0 5a 1 93 f 20 25 9 0 30 3f 1f 50 2f 0 58 a7 19c0 3f 5900 21 66 2 a5 9
    f4 0 a0 0 18b 0 e 1 51d2 1 d0 9 16 22 1 12 1 3 93 0 1 1f 1a 5 1a a a 0 2d 1 40 6 1 6 a 4 102
    2 4 2c 3 8 50 c 33 2c e4 1a b9a4 3 f5c fc 3 1b3 6 16 f 10 5f 73 3c f5 a 26 2 3d 3 10 8 1 7
    1d 4 3c d5 13 c 13 c 56 9 18 87 54 1 46 1 1 2 0 2 1 2 3 1 b 1 0 1 6 1 40 1 3 2 7 1 6 1 1b 1
    3 1 4 1 0 3 6 1 153 2 123 2 31 1471 43 4c 3c 2c2 2b 4 63 c e 2 e 1 e 1 24 a ad 38 19 1 1 d
    2b 4 8 7 1 e 5 9a 3d8 3 10 3 c 3 d9 6 b 4 0 f b 4 37 8 9 6 27 8 1d 2 b 4 1 e 8 27 157 8 d 2
    c 3 a 3 38 1 0 4 f 2 b 4 9 7 92 1 66 c0406 0 1e 5f"),
    ("Unknown", "Zzzz",
      "378 1 6 3 7 0 1 0 14 0 18d 0 26 1 32 1 3 0 37 7 1b 3 6 a 10e 0 3c 1 65 d 3b 1 31 1 f 0 1c 1
    1 0 b 4 22 4 ed 0 8 1 2 1 16 0 7 0 1 2 4 1 9 1 2 1 4 7 1 3 2 0 5 1 19 1 3 0 6 3 2 1 16 0 7 0
    2 0 2 0 2 1 1 0 5 3 2 1 3 2 1 6 4 0 1 6 11 9 3 0 9 0 3 0 16 0 7 0 2 0 5 1 a 0 3 0 3 1 1 e 4
    1 c 6 7 0 3 0 8 1 2 1 16 0 7 0 2 0 5 1 9 1 2 1 3 6 3 3 2 0 5 1 12 9 2 0 6 2 3 0 4 2 2 0 1 0
    2 2 2 2 3 2 c 3 5 2 3 0 4 1 1 5 1 d 15 4 d 0 3 0 17 0 10 1 9 0 3 0 4 6 2 0 3 0 2 1 4 1 a 6
    16 0 3 0 17 0 a 0 5 1 9 0 3 0 4 6 2 4 3 0 4 1 a 0 3 b d 0 3 0 33 0 3 0 6 3 10 1 1a 0 3 0 12
    2 18 0 9 0 1 1 7 2 1 3 6 0 1 0 8 5 a 1 3 b 3a 3 1d 24 2 0 1 0 5 0 18 0 1 0 17 1 5 0 1 0 7 0
    a 1 4 1f 48 0 24 3 27 0 24 0 f 0 d 24 c6 0 1 4 1 1 179 0 4 1 7 0 1 0 4 1 29 0 4 1 21 0 4 1 7
    0 1 0 4 1 f 0 39 0 4 1 43 1 20 2 1a 5 56 1 6 1 29d 2 59 6 16 8 18 8 14 b d 0 3 0 2 b 5e 1 a
    5 a 5 1a 5 59 6 2b 4 46 9 1f 0 c 3 c 3 1 2 2a 1 5 a 2c 3 1a 5 b 2 3e 1 41 0 1d 1 b 5 a 5 e 1
    2e 1 c 13 4d 0 a6 7 3c 2 f 2 3e 4 2b 1 b 7 2b 4 216 1 6 1 26 1 6 1 8 0 1 0 1 0 1 0 1f 1 35 0
    f 0 e 1 6 0 13 1 3 0 9 0 65 0 c 1 1b 0 d 2 22 d 21 e 8c 3 29a 15 b 14 714 1 17e 4 2d 0 1 4 1
    1 38 6 2 d 18 8 7 0 7 0 7 0 7 0 7 0 7 0 7 0 7 0 7e 21 1a 0 59 b d6 19 50 0 56 1 67 4 2b 0 5e
    0 56 8 30 0 726d 2 37 8 15c 13 b8 7 dd 13 3c 2 a 5 38 7 46 7 c 5 74 a 1e 2 4e 0 b 3 21 0 37
    8 e 1 a 1 67 17 1c 9 6 1 6 1 6 8 7 0 7 0 3c 3 7e 1 a 5 2ba4 b 17 3 31 3 800 18ff 16e 1 6a 25
    7 b 5 4 1a 0 5 0 1 0 2 0 2 0 28a 1f 2a 5 33 0 13 0 4 3 5 0 87 1 1 0 be 2 6 1 6 1 6 1 3 2 7 0
    7 9 5 1 c 0 1a 0 13 0 2 0 f 1 e 21 7b 4 3 3 2d 2 58 0 d 2 1 2e 2e 81 1d 2 31 e 1c 3 24 8 1e
    4 2b 4 1e 0 25 3 e 29 9e 1 a 5 24 3 24 3 28 7 34 a c 0 f 0 7 0 2 0 b 0 f 0 7 0 2 2 34 b 137
    8 16 9 8 17 6 0 2a 0 9 44 6 1 1 0 2c 0 2 2 1 1 17 0 48 7 9 2f 13 0 2 4 21 2 1b 4 1b 25 38 3
    14 1 32 0 2 4 8 0 3 0 1d 1 3 3 a 6 9 6 40 1f 27 3 c 8 36 2 1d 1 1b 4 1a 6 4 b 7 4f 49 36 33
    c 33 6 2e 7 a 5 26 2 1d 7 2 cf 1f 0 2a 0 3 1 2 f 6 7 9 20 2e 7 2a 15 1a 25 1c 13 17 8 4e 3
    24 8 44 9 1 1 19 6 a 5 35 0 12 7 27 8 60 0 14 a 12 0 2f 3d 7 0 1 0 4 0 f 0 b 5 3b 4 a 5 4 0
    8 1 2 1 16 0 7 0 2 0 5 0 a 1 2 1 3 1 1 5 1 4 7 1 7 2 5 a a 0 1 1 1 0 26 0 a 0 1 1 1 0 4 0 a
    0 2 7 2 1c 5c 0 5 1d 48 7 a a5 36 1 26 21 45 a a 5 d 12 3a 5 a 5 14 1b 1b 1 f 3 17 b8 3c 63
    53 b 8 1 1 1 8 0 2 0 1e 0 2 1 c 8 a 45 8 1 2e 1 b 1a 48 7 53 c 49 6 a 55 8 57 22 d a 5 9 0
    2d 0 e 9 1d 2 20 1 16 0 e 48 7 0 2 0 2c 2 1 0 2 0 9 7 a 5 6 0 2 0 25 0 2 0 6 6 a 5 2c 3 a f5
    19 6 11 0 29 2 1d 54 1 e 32 c 39b 65 6f 0 5 a c4 a4b 63 c 456 9 f9b 4 247 1ab8 3a 6c5 239 6
    1f 0 a 3 51 0 a 5 1e 1 6 9 46 9 a 0 7 0 15 4 13 1af 3a c5 5b 4 19 1 19 2b 4b 3 39 6 11 3f 5
    a 7 8 1cd6 28 20 60 73 21fc 4 0 7 0 2 0 123 e 1 1c 3 1 1 d 4 7 18c 903 6b 4 d 2 9 6 a 1 8
    f5b fd 2 1b4 5 17 e 11 e 2e 1 17 8 74 3b f6 9 27 1 c2 14 46 79 14 b 14 b 57 8 19 86 55 0 47
    0 2 1 1 1 2 1 4 0 c 0 1 0 7 0 41 0 4 1 8 0 7 0 1c 0 4 0 5 0 1 2 7 0 154 1 124 1 2be e 5 0 f
    44f 1f 5 6 d4 7 0 11 1 7 0 2 0 5 4 3e 20 1 6f 2d 2 e 1 a 3 2 13f 1f 10 3a 4 1 1cf 2a d5 2b 3
    1 bf 1f 0 16 7 2 df 7 0 4 0 2 0 f 0 c5 1 10 28 4c 3 a 3 2 310 44 4b 3d c1 4 0 1b 0 2 0 1 1 1
    0 a 0 4 0 1 0 1 5 1 3 1 0 1 0 1 0 3 0 2 0 1 1 1 0 1 0 1 0 1 0 1 0 2 0 1 1 4 0 7 0 4 0 4 0 1
    0 a 0 11 4 3 0 5 0 11 33 2 10d 2c 3 64 b f 1 f 0 f 0 25 9 ae 37 1d c 2c 3 9 6 2 d 6 99 3d9 2
    11 2 d 2 da 5 c 3 1 e c 3 38 7 a 5 28 7 1e 1 c 3 2 d 9 26 158 7 e 1 d 2 b 2 39 0 1 3 10 1 c
    3 a 6 93 0 67 404 a6e0 1f 111e 1 168e 1 1d31 e 26e 9a1 21e 5e1 134b 4 212a acb86 1 1d 60 7f
    f0 2fe0f")]

end LogTail.Unicode.Table
