import SharedValues.Ty.Name

/-!
The types that a request may ask for, in the order in which they are listed.
-/
namespace SharedValues.Ty

def i32 : Ty := .int .i32
def i64 : Ty := .int .i64

/-- The type of a tuple with the given components. -/
def ofComponents (ts : List Ty) : Ty :=
  ts.foldr .tuple .unit

def scalars : List Ty :=
  [.int .u8, .int .u16, .int .u32, .int .u64, .int .u128, .int .usize,
   .int .i8, .int .i16, .int .i32, .int .i64, .int .i128, .int .isize,
   .float32, .float64, .bool, .char, .string, .borrowed]

def lists : List Ty :=
  [.list (.int .u8), .list i32, .list i64, .list .float64, .list .bool, .list .char,
   .list .string, .list .borrowed, .list (.list i32), .list (.list (.list i32)),
   .list (.option i32), .list .probe, .list (.cell i32), .list (.cell (.list i32)),
   .list .dyn, .list .meters, .list (.sortedMap .string i32)]

def arrays : List Ty :=
  [.array i32 0, .array i32 1, .array i32 3, .array .bool 2, .array .string 2,
   .array (.cell i32) 2, .array (.array i32 2) 2, .array .probe 2]

def options : List Ty :=
  [.option i32, .option .string, .option (.option i32), .option (.list i32),
   .option (.boxed i32), .option (.cell i32), .option .probe]

def boxes : List Ty :=
  [.boxed i32, .boxed .string, .boxed (.list i32), .boxed (.boxed i32), .boxed .probe,
   .boxed (.cell i32)]

def maps : List Ty :=
  [.sortedMap .string i32, .sortedMap i32 .string, .sortedMap i32 i32,
   .sortedMap .string (.list i32), .sortedMap .string (.cell i32),
   .sortedMap .string (.cell (.list i32)), .sortedMap i32 (.sortedMap i32 i32),
   .sortedMap (.list i32) i32, .sortedMap (.option i32) .bool, .sortedMap .char i32,
   .sortedMap .bool i32, .sortedMap (.int .u64) .float64, .sortedMap i32 .probe,
   .hashedMap i32 i32, .hashedMap .string i32, .hashedMap i32 (.cell .string),
   .fixedMap i32 i32]

def cells : List Ty :=
  [.cell i32, .cell i64, .cell (.int .u8), .cell .float64, .cell .bool, .cell .char,
   .cell .string, .cell (.list i32), .cell (.list .string), .cell (.cell i32),
   .cell (.cell (.list i32)), .cell (.option i32), .cell (.sortedMap .string i32),
   .cell .probe, .cell .dyn, .cell (.list (.cell i32)), .cell (.object .pet), .cell .meters]

def samples : List Ty :=
  [.meters, .feet, .probe, .dog, .cat, .counter, .inventory, .dyn]

def objects : List Ty :=
  [.object .pet, .object .named, .object .text, .object .ints, .list (.object .pet),
   .option (.object .pet)]

def functions : List Ty :=
  [.function .closure, .function .plain, .function .measure, .list (.function .closure),
   .sortedMap .string (.function .closure)]

/-- Types that hold erased values, and so have no deep copy. -/
def shallow : List Ty :=
  [.erased, .list .erased, .option .erased, .boxed .erased, .cell .erased,
   .sortedMap .string .erased, .array .erased 2]

/-- Types without a text. -/
def plain : List Ty :=
  [.unit, ofComponents [i32], ofComponents [i32, .string],
   ofComponents [.option (.boxed (.list i32)), .string, .cell (.int .u8)],
   ofComponents [.probe, .probe, .probe, .probe], ofComponents [.cell i32, .cell i32],
   ofComponents [.list i32, ofComponents [.bool, .char], .float64, .option .unit],
   .list (ofComponents [i32, .string]), .cell (ofComponents [i32, .string]),
   .sortedMap (ofComponents [i32, .string]) (.cell i32), .list .unit]

def catalog : List Ty :=
  scalars ++ lists ++ arrays ++ options ++ boxes ++ maps ++ cells ++ samples ++ objects ++
    functions ++ shallow ++ plain

/-- Names that stand for no type of values. -/
def bareNames : List Ty :=
  [.nil, .textSlice, .intSlice, .interface .pet, .interface .named]

/-- The type of values with a given key. -/
def ofKey? (key : String) : Option Ty :=
  catalog.find? (·.key == key)

/-- The type or bare name with a given key. -/
def tokenOfKey? (key : String) : Option Ty :=
  (catalog ++ bareNames).find? (·.key == key)

end SharedValues.Ty
