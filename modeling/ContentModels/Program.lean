set_option autoImplicit false

namespace ContentModels.Program

def name : String := "contentstack-modelgen"

def version : String := "0.5.0"

end ContentModels.Program
