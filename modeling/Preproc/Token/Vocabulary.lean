/-!
# The fixed words and punctuators of the language
-/

namespace Preproc

/-- The reserved words. -/
def keywords : List String :=
  ["alignas", "alignof", "asm", "auto", "bool", "break", "case", "catch", "char", "char8_t",
   "char16_t", "char32_t", "class", "concept", "const", "consteval", "constexpr", "constinit",
   "const_cast", "continue", "co_await", "co_return", "co_yield", "decltype", "default", "delete",
   "do", "double", "dynamic_cast", "else", "enum", "explicit", "export", "extern", "false", "float",
   "for", "friend", "goto", "if", "inline", "int", "long", "mutable", "namespace", "new",
   "noexcept", "nullptr", "operator", "private", "protected", "public", "register",
   "reinterpret_cast", "requires", "return", "short", "signed", "sizeof", "static",
   "static_assert", "static_cast", "struct", "switch", "template", "this", "thread_local", "throw",
   "true", "try", "typedef", "typeid", "typename", "union", "unsigned", "using", "virtual", "void",
   "volatile", "wchar_t", "while"]

/-- The punctuators, longest first, so that the first match is the longest. -/
def punctuators : List String :=
  ["%:%:",
   "...", "<<=", ">>=", "->*", "<=>",
   "::", ".*", "->", "++", "--", "<<", ">>", "<=", ">=", "==", "!=", "&&", "||", "*=", "/=", "%=",
   "+=", "-=", "&=", "^=", "|=", "##", "<:", ":>", "<%", "%>", "%:",
   "\x7b", "\x7d", "[", "]", "(", ")", ";", ":", "?", ".", "+", "-", "*", "/", "%", "^", "&", "|",
   "~", "!", "=", "<", ">", ",", "#"]

/-- The encodings of string and character literals, longest first. -/
def encodings : List String :=
  ["u8", "u", "U", "L", ""]

/-- The encodings of raw string literals. -/
def rawEncodings : List String :=
  ["u8R", "uR", "UR", "LR", "R"]

end Preproc
