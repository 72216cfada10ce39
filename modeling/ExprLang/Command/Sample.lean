/-!
# The Sample Program

The program that is parsed when no file is given.
-/

namespace ExprLang.Command

def sampleName : String := "sample.k"

def sampleSource : String :=
  "# declaring externs\n" ++
  "extern sub(a, b);\n" ++
  "\n" ++
  "# sums both numbers together\n" ++
  "fn sum(a, b) \x7b\n" ++
  "\ta + b;\t# the last computed value is returned by default\n" ++
  "\x7d\n" ++
  "\n" ++
  "fn max(a, b) \x7b\n" ++
  "\tif(a > b) \x7b\n" ++
  "\t\treturn a;\n" ++
  "\t\x7d\n" ++
  "\n" ++
  "\treturn b;\n" ++
  "\x7d\n" ++
  "\n" ++
  "fn min(a, b) \x7b\n" ++
  "\tif(a < b) \x7b\n" ++
  "\t\treturn a;\n" ++
  "\t\x7d\n" ++
  "\n" ++
  "\treturn b;\n" ++
  "\x7d\n" ++
  "\n" ++
  "fn clamp(value, min, max) \x7b\n" ++
  "\tif(value < min) \x7b\n" ++
  "\t\treturn min;\n" ++
  "\t\x7d\n" ++
  "\telse if(value > max) \x7b\n" ++
  "\t\treturn max;\n" ++
  "\t\x7d\n" ++
  "\n" ++
  "\treturn value;\n" ++
  "\x7d\n" ++
  "\n" ++
  "fn testfor(a, b) \x7b\n" ++
  "\tfor (i = 1; i < a; 1.0) \x7b\n" ++
  "\t\tif(i > b) \x7b\n" ++
  "\t\t\treturn i;\n" ++
  "\t\t\x7d\n" ++
  "\t\x7d\n" ++
  "\n" ++
  "\treturn b;\n" ++
  "\x7d\n" ++
  "\n" ++
  "# top-level expressions are supported\n" ++
  "sum(2.0, 3.0);\n" ++
  "max(2.0 + 5.0 * 3.0, 7);\n" ++
  "clamp(20, 50, 100);\n" ++
  "testfor(1000.0, 10.0);\n"

end ExprLang.Command
