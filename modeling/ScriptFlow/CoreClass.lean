import ScriptFlow.Value

/-! The classes every program starts from. Their places in the class table are fixed. -/

namespace ScriptFlow.CoreClass

def basicObject : ModuleId := 0
def object : ModuleId := 1
def moduleClass : ModuleId := 2
def classClass : ModuleId := 3
def kernel : ModuleId := 4
def nilClass : ModuleId := 5
def trueClass : ModuleId := 6
def falseClass : ModuleId := 7
def numeric : ModuleId := 8
def integer : ModuleId := 9
def float : ModuleId := 10
def string : ModuleId := 11
def symbol : ModuleId := 12
def array : ModuleId := 13
def hash : ModuleId := 14
def range : ModuleId := 15
def proc : ModuleId := 16
def exception : ModuleId := 17
def scriptError : ModuleId := 18
def standardError : ModuleId := 19
def nameError : ModuleId := 20
def noMethodError : ModuleId := 21
def argumentError : ModuleId := 22
def typeError : ModuleId := 23
def localJumpError : ModuleId := 24
def zeroDivisionError : ModuleId := 25
def runtimeError : ModuleId := 26
def indexError : ModuleId := 27
def keyError : ModuleId := 28
def stopIteration : ModuleId := 29

end ScriptFlow.CoreClass
