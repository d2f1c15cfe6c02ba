import AudLang.Token.Listing

/-!
A sample source with a bit of everything, and the listing of its tokens.  It ends in a comment that
is never closed.
-/

namespace AudLang.Sample

/-- The sample source. -/
def source : String := "
/* This is a block comment
    spanning multiple lines */
func int add(int x, float y) \x7b
    string message = \"Processing...\";
    print(message);
    int result = x * ftoi(y) + 10; /* Inline comment */
    if (result > 100 && x != 0) \x7b
        return result;
    \x7d else \x7b
        /* bool flag = true; */
        return -1;
    \x7d
\x7d

float value = 123.45;
List<int> numbers = [1, 2, 3];
int final_val = calculate(5, value);
File f = File(\"test.txt\"); /* Constructor */
f.change_filename(\"new_name.doc\");
int err = 1.2.3; /* Invalid float *//
/* Unterminated
    "

/-- The listing of the sample under the usual limits. -/
def listing : Listing := Listing.ofSource {} source

/-- What is printed for the sample. -/
def output : String := "--- Lexing from string ---\n" ++ listing.text

end AudLang.Sample
