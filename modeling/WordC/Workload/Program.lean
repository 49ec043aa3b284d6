import WordC.Text.Space

/-!
# Programs to measure with

Generated programs that touch every part of the language: globals of each kind, an interrupt
function, and any number of functions that are alike but for their number, each with a helper of its
own.
-/

namespace WordC.Workload

open Text (unlines)

/-- What a workload is made with: its parameter, the usual value and those to measure with. -/
structure Parameter where
  name : String
  usual : Nat
  values : List Nat

/-- What every program starts with. -/
def header : String := unlines
  ["// header",
    "/* multi",
    "   line */",
    "uint32 G = 5;",
    "int32 GS;",
    "register uint32 r5 = 0;",
    "volatile uint32 VOL = 1;",
    "uint32 GA[3] = \x7b1, 2, 3\x7d;",
    "uint32* GP;",
    "interrupt function isr() \x7b return; \x7d"]

/-- The main function, which calls the first of the functions. -/
def mainFunction : String := unlines
  ["function main() \x7b",
    "    uint32 t = 0;",
    "    uint32* pp = &t;",
    "    t = f0(G, pp, 2);",
    "    return t;",
    "\x7d"]

/-- The function of a number, with its helper. -/
def feature (i : Nat) : String :=
  let n := toString i
  unlines
    ["function f" ++ n ++ "(uint32 a, uint32* p, b) \x7b",
      "    uint32 x = 0x1F + a;",
      "    int32 s = -3;",
      "    volatile uint32 v = 1;",
      "    uint32 arr[4] = \x7b1, 2, 3, 4\x7d;",
      "    uint32* q = &arr[0];",
      "    for (uint32 i = 0; i < 4; i++) \x7b",
      "        x = x + arr[i] * 2 - (a % 3);",
      "        if (x >= 10 && i != 2) \x7b x = x << 1; \x7d",
      "        else if (x <= 5 || i == 0) \x7b x = x >> 1; \x7d",
      "        else \x7b x = x ^ (a | b) & 0xFF; \x7d",
      "    \x7d",
      "    for (int32 j = 3; j > 0; --j) \x7b x = x + 1; \x7d",
      "    uint32 k = 0;",
      "    for (k = 0; k < 4; k = k + 1) \x7b if(k==1)\x7bcontinue;\x7d s = s + 1; \x7d",
      "    uint32 wc = 3;",
      "    while (wc > 0) \x7b wc--; if(wc==2)\x7bcontinue;\x7d if(wc==0)\x7bbreak;\x7d \x7d",
      "    while (!v) \x7b break; \x7d",
      "    do \x7b x--; ++x; if(x>999999)\x7bbreak;\x7d continue; \x7d while (x < 0);",
      "    arr[1] = x / 2;",
      "    *q = arr[1];",
      "    asm \x7b nop",
      " mov r:0, r:0 \x7d;",
      "    \x7b uint32 inner = 1; x = x + inner; \x7d",
      "    helper" ++ n ++ "();",
      "    return x + *p + &*q - &arr[0] + a;",
      "\x7d",
      "function helper" ++ n ++ "() \x7b return; \x7d"]

/-- The program with a number of functions. -/
def program (functions : Nat) : String :=
  header ++ String.join ((List.range functions).map feature) ++ mainFunction

end WordC.Workload
