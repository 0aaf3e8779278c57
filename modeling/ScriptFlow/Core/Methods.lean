import ScriptFlow.ClassTable.Basic

/-! The methods of the core classes: what is declared of them, and which of them can be worked out
on known operands. -/

namespace ScriptFlow.Core

open CoreClass

variable (name : String) (params : List ParamKind)

def returning (t : Ty) (s : MethodSpec) : MethodSpec := { s with returns := .fixed t }

def returningSelf (s : MethodSpec) : MethodSpec := { s with returns := .receiver }

def returningInstance (s : MethodSpec) : MethodSpec := { s with returns := .newInstance }

def maybeRaising (t : Ty) (s : MethodSpec) : MethodSpec := { s with raises := some (t, .maybe) }

def yielding (u : BlockUse) (s : MethodSpec) : MethodSpec := { s with blockUse := some u }

def hidden (s : MethodSpec) : MethodSpec := { s with visibility := .implicitOnly }

/-- Pure, and worked out by a primitive. -/
def folding (p : Primitive) (s : MethodSpec) : MethodSpec :=
  { s with pure := true, primitive := some p }

def anything : MethodSpec :=
  .builtinMethod name params

def calm : MethodSpec :=
  (MethodSpec.builtinMethod name params).neverRaises

/-- A pure method that never raises. -/
def known (t : Ty) (p : Primitive) : MethodSpec :=
  folding p (returning t (calm name params))

/-- A pure method that may raise. -/
def fallible (t raised : Ty) (p : Primitive) :
    MethodSpec :=
  folding p (maybeRaising raised (returning t (anything name params)))

/-- A pure method whose result has the receiver's type. -/
def knownSelf : MethodSpec := folding .itself (returningSelf (calm name []))

abbrev MethodList := List (ModuleId × MethodSpec)

def on (owner : ModuleId) (specs : List MethodSpec) : MethodList := specs.map (owner, ·)

def kernelMethods : MethodList :=
  on kernel
    ((["==", "equal?", "eql?", "==="].map fun n => known n [.required] .boolean .equal) ++
      [known "!=" [.required] .boolean .notEqual]) ++
  on basicObject
    [known "!" [] .boolean .negation,
      known "==" [.required] .boolean .equal,
      yielding .optional (anything "instance_eval" [.optional])] ++
  on kernel
    ([known "nil?" [] .boolean .isNil] ++
      (["is_a?", "kind_of?"].map fun n =>
        fallible n [.required] .boolean (.exact typeError) .isA) ++
      [fallible "instance_of?" [.required] .boolean (.exact typeError) .instanceOf,
        known "class" [] (.orBelow classClass) .classOf,
        known "to_s" [] (.exact string) .toText,
        known "inspect" [] (.exact string) .inspect] ++
      ["dup", "clone", "freeze", "itself"].map knownSelf ++
      [yielding .required (returningSelf (calm "tap" [])),
        known "respond_to?" [.required, .optional] .boolean .respondTo,
        anything "instance_variable_get" [.required],
        anything "instance_variable_set" [.required, .required],
        returning .boolean (calm "instance_variable_defined?" [.required])] ++
      (["send", "__send__", "public_send"].map fun n => anything n [.required, .rest]) ++
      [hidden { returning .empty (anything "raise" [.optional, .optional]) with
        raises := some (.orBelow exception, .always) }] ++
      (["puts", "print", "p", "require"].map fun n => hidden (returning .nil (calm n [.rest]))) ++
      [hidden (returning .boolean (calm "block_given?" []))] ++
      (["lambda", "proc"].map fun n =>
        hidden (yielding .ignored (returning (.exact proc) (calm n [])))) ++
      [hidden (yielding .required (returning .nil (anything "loop" [])))])

def moduleMethods : MethodList :=
  on moduleClass
    ([known "===" [.required] .boolean .caseEqual,
        known "==" [.required] .boolean .equal] ++
      (["name", "to_s", "inspect"].map fun n => known n [] (.exact string) .moduleName) ++
      [{ maybeRaising (.exact nameError) (anything "const_get" [.required, .optional]) with
          primitive := some .constGet },
        returning .top (calm "const_set" [.required, .required]),
        known "const_defined?" [.required] .boolean .constDefined,
        known "ancestors" [] (.exact array) .ancestors,
        known "<" [.required] (Ty.boolean.join .nil) .moduleLess,
        yielding .ignored
          (returning (.exact symbol) (calm "define_method" [.required, .optional]))] ++
      (["include", "extend", "attr_reader", "attr_writer", "attr_accessor"].map fun n =>
        hidden (calm n [.rest]))) ++
  on classClass
    [returningInstance (anything "new" [.rest]),
      returningInstance (calm "allocate" []),
      known "superclass" [] ((Ty.orBelow classClass).join .nil) .superclass]

def singletonMethods (c : ClassTable) : MethodList :=
  on (c.singletonOf array) [returning (.exact array) (calm "[]" [.rest])] ++
  on (c.singletonOf proc)
    [maybeRaising (.exact argumentError) (returning (.exact proc) (anything "new" []))]

def numeric : Ty := (Ty.exact integer).join (.exact float)

def numberMethods (cls : ModuleId) : MethodList :=
  let divide := (Ty.exact zeroDivisionError).join (.exact typeError)
  on cls
    (([("+", .add), ("-", .sub), ("*", .mul)].map fun (n, p) =>
        fallible n [.required] numeric (.exact typeError) p) ++
      ([("/", .div), ("%", .mod), ("**", .pow)].map fun (n, p) =>
        fallible n [.required] numeric divide p) ++
      ([("<", .less), ("<=", .lessEq), (">", .greater), (">=", .greaterEq)].map fun (n, p) =>
        fallible n [.required] .boolean (.exact argumentError) p) ++
      [known "==" [.required] .boolean .numEqual,
        known "<=>" [.required] ((Ty.exact integer).join .nil) .order,
        known "-@" [] (.exact cls) .minus,
        known "to_s" [] (.exact string) .toText,
        known "to_i" [] (.exact integer) .toInt,
        known "to_f" [] (.exact float) .toFloat,
        known "zero?" [] .boolean .isZero,
        known "abs" [] (.exact cls) .abs])

def numericMethods : MethodList :=
  numberMethods integer ++ numberMethods float ++
  on integer
    [known "succ" [] (.exact integer) .succ,
      yielding .required (returning (.exact integer) (calm "times" []))]

def sizeMethods : List MethodSpec :=
  ["size", "length"].map fun n => known n [] (.exact integer) .size

def textMethods : MethodList :=
  on string
    ([fallible "+" [.required] (.exact string) (.exact typeError) .concat,
        fallible "*" [.required] (.exact string)
          ((Ty.exact typeError).join (.exact argumentError)) .repeatText,
        known "==" [.required] .boolean .equal] ++
      sizeMethods ++
      [known "to_s" [] (.exact string) .itself,
        known "to_str" [] (.exact string) .itself,
        known "to_sym" [] (.exact symbol) .toSym,
        known "upcase" [] (.exact string) .upcase,
        known "downcase" [] (.exact string) .downcase,
        known "reverse" [] (.exact string) .reverse,
        known "empty?" [] .boolean .isEmpty,
        known "[]" [.required] ((Ty.exact string).join .nil) .index,
        known "<=>" [.required] ((Ty.exact integer).join .nil) .order]) ++
  on symbol
    ([known "to_s" [] (.exact string) .toText,
        known "to_sym" [] (.exact symbol) .itself] ++
      sizeMethods) ++
  on nilClass
    [known "to_s" [] (.exact string) .toText,
      known "to_a" [] (.tuple []) .emptyArray,
      known "to_i" [] (.exact integer) .toInt,
      known "inspect" [] (.exact string) .inspect] ++
  ([nilClass, trueClass, falseClass].flatMap fun cls =>
    on cls
      [known "&" [.required] .boolean .both,
        known "|" [.required] .boolean .either]) ++
  on trueClass [known "to_s" [] (.exact string) .toText] ++
  on falseClass [known "to_s" [] (.exact string) .toText]

/-- A method that calls its block for each element. -/
def each : MethodSpec := yielding .required (anything name [])

def collectionMethods : MethodList :=
  (sizeMethods.flatMap fun s => [(array, s), (hash, s)]) ++
  on array
    ([known "[]" [.required, .optional] .top .index,
        known "first" [] .top .first,
        known "last" [] .top .last,
        known "empty?" [] .boolean .isEmpty,
        known "include?" [.required] .boolean .includesItem,
        known "==" [.required] .boolean .equal,
        known "reverse" [] (.exact array) .reverse] ++
      ["to_a", "to_ary", "entries"].map knownSelf ++
      [fallible "+" [.required] (.exact array) (.exact typeError) .concatArray,
        fallible "*" [.required] (.exact array) (.exact argumentError) .repeatArray,
        folding .joinText (returning (.exact string) (anything "join" [.optional]))] ++
      (["push", "<<"].map fun n => returningSelf (calm n [.rest])) ++
      [returning .top (calm "pop" []),
        maybeRaising (.exact indexError)
          (returning .top (anything "[]=" [.required, .required, .optional]))]) ++
  on array
    [returningSelf (each "each"),
      returningSelf (each "each_with_index"),
      returning (.exact array) (each "map"),
      returning (.exact array) (each "select")] ++
  on hash [returningSelf (each "each"), returningSelf (each "each_pair")] ++
  on range [returningSelf (each "each")] ++
  on hash
    ([known "[]" [.required] .top .lookup,
        returning .top (calm "[]=" [.required, .required]),
        known "keys" [] (.exact array) .keys,
        known "values" [] (.exact array) .values] ++
      (["key?", "has_key?", "include?"].map fun n => known n [.required] .boolean .hasKey) ++
      [known "empty?" [] .boolean .isEmpty]) ++
  on range
    ((["first", "begin"].map fun n => known n [] .top .rangeFirst) ++
      (["last", "end"].map fun n => known n [] .top .rangeLast) ++
      (["include?", "==="].map fun n => known n [.required] .boolean .inRange) ++
      [fallible "to_a" [] (.exact array) (.exact typeError) .rangeItems]) ++
  on proc
    ((["call", "[]", "yield", "==="].map fun n => anything n [.rest]) ++
      [returning (.exact integer) (calm "arity" []),
        known "lambda?" [] .boolean .isLambda])

def exceptionMethods (c : ClassTable) : MethodList :=
  on exception
    ((["message", "to_s"].map fun n => returning (.exact string) (calm n [])) ++
      [returning ((Ty.exact array).join .nil) (calm "backtrace" [])]) ++
  on (c.singletonOf exception) [returningInstance (calm "exception" [.optional])]

end ScriptFlow.Core
