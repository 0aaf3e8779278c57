import ScriptFlow.Core.Methods

/-! The class table every program starts from. -/

namespace ScriptFlow

namespace Core

open CoreClass

/-- Path, kind and superclass of the core modules, each at its fixed place. -/
def coreModules : List (String × ModuleKind × Option ModuleId) :=
  [("BasicObject", .cls, none),
    ("Object", .cls, some basicObject),
    ("Module", .cls, some object),
    ("Class", .cls, some moduleClass),
    ("Kernel", .mixin, none),
    ("NilClass", .cls, some object),
    ("TrueClass", .cls, some object),
    ("FalseClass", .cls, some object),
    ("Numeric", .cls, some object),
    ("Integer", .cls, some CoreClass.numeric),
    ("Float", .cls, some CoreClass.numeric),
    ("String", .cls, some object),
    ("Symbol", .cls, some object),
    ("Array", .cls, some object),
    ("Hash", .cls, some object),
    ("Range", .cls, some object),
    ("Proc", .cls, some object),
    ("Exception", .cls, some object),
    ("ScriptError", .cls, some exception),
    ("StandardError", .cls, some exception),
    ("NameError", .cls, some standardError),
    ("NoMethodError", .cls, some nameError),
    ("ArgumentError", .cls, some standardError),
    ("TypeError", .cls, some standardError),
    ("LocalJumpError", .cls, some standardError),
    ("ZeroDivisionError", .cls, some standardError),
    ("RuntimeError", .cls, some standardError),
    ("IndexError", .cls, some standardError),
    ("KeyError", .cls, some indexError),
    ("StopIteration", .cls, some indexError)]

/-- The core modules and their singletons, which come after all of them, without methods. -/
def skeleton : ClassTable :=
  let c := coreModules.foldl
    (fun (c : ClassTable) (path, kind, parent) => (c.pushModule path kind parent).2) .empty
  let places := List.range coreModules.length
  let c := places.foldl (fun c m => c.attachSingleton m) c
  let c := (coreModules.map (·.1)).zip places |>.foldl (fun c (path, m) => c.bindPath path m) c
  c.includeModule object kernel

def defineAll (c : ClassTable) (methods : MethodList) : ClassTable :=
  methods.foldl (fun c (owner, s) => (c.defineMethod owner s).2) c

end Core

def ClassTable.core : ClassTable :=
  let c := Core.defineAll Core.skeleton
    (Core.kernelMethods ++ Core.moduleMethods ++ Core.singletonMethods Core.skeleton ++
      Core.numericMethods ++ Core.textMethods ++ Core.collectionMethods ++
      Core.exceptionMethods Core.skeleton)
  c.declareVariable CoreClass.exception "@message" (.exact CoreClass.string)

end ScriptFlow
