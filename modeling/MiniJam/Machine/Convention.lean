/-!
# Conventions of the machine

What compiled code and the machine agree on: the shape of call frames, of heap blocks and of class
descriptors, and the words for truth values and null.
-/

namespace MiniJam.Machine

/-- The words of a call frame: the caller's object, the caller's frame and the return address. -/
def linkWords : Int := 3

/-- The words in front of an object or array: its class (or `arrayTag`) and its size. -/
def headerWords : Int := 2

def headerClass : Int := -2

def headerSize : Int := -1

def arrayTag : Int := -2

/-- The parent class in the descriptor of a class without one. -/
def noParent : Int := -1

def descriptorCount : Int := 2

def descriptorMethods : Int := 3

def falseWord : Int := 0

def trueWord : Int := 1

def nullWord : Int := 0

/-- The words of the data store, unless an option says otherwise. -/
def defaultDataStore : Int := 1024

/-- The capacity of the code segment, unless an option says otherwise. -/
def defaultCapacity : Int := 1024

end MiniJam.Machine
