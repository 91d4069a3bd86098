import OutlineMarkup.Text

/-!
# Shipped modules

The modules that every document can import: ready-made verbatim blocks, and template engines for
some web frameworks.
-/

namespace OutlineMarkup

namespace Library

def commonLines : List String :=
  ["text = verbatim_line(p)",
   "javascript = verbatim(script(type='text/javascript'))",
   "rapydscript = code_block(script(type='text/javascript'), ' > /tmp/tmpfile.pyj && rapydscript /tmp/tmpfile.pyj && cat /tmp/tmpfile.js')"]

def djangoLines : List String :=
  ["# DJANGO Template Engine",
   "#",
   "# This is a template engine for basic Django logic. A lot of the same logic can be reused to ",
   "# create template engines for other markup.",
   "",
   "django = TemplateEngine('\x7b%s\x7d')",
   "",
   "# logic we didn't account for: django.do(\"items = ['a', 'b', 'c']\") -> \x7b% items = ['a', 'b', 'c'] %\x7d",
   "django.do = create('%% %s %%')",
   "",
   "# basic",
   "# extend logic",
   "# variables: django.var(a) -> \x7b\x7ba\x7d\x7d",
   "# output: django.print(item) -> \x7b%= item %\x7d",
   "django.extend = create('%% extends %s %%')",
   "django.var = create('\x7b%s\x7d')",
   "django.print = create('%%= %s %%')",
   "",
   "# loops",
   "django.for = create('%% for %s in %s %%', '% endfor %')",
   "django.while = create('%% while %s %%', '% endwhile %')",
   "",
   "# if statements",
   "django.if = create('%% if %s %%', '% endif %')",
   "django.elif = django.if.append('%% elif %s %%')",
   "django.else = django.if.append('% else %')",
   "",
   "# other",
   "django.block = create('%% block %s %%', '% endblock %')"]

def jinja2Lines : List String :=
  ["# JINJA2 Template Engine",
   "",
   "jinja2 = TemplateEngine('\x7b%s\x7d')",
   "",
   "jinja2.extends = create('%% extends %s %%')",
   "",
   "jinja2.block = create('%% block %s %%', '% endblock %')"]

def railsLines : List String :=
  ["# Ruby on Rails Template Engine",
   "#",
   "# This is a template engine for basic rails logic. A lot of the same logic can be reused to ",
   "# create template engines for other markup, such as Django and Rails",
   "",
   "rails = TemplateEngine('<%%%s%%>')",
   "",
   "# logic we didn't account for: rails.do(\"items = ['a', 'b', 'c']\") -> <% items = ['a', 'b', 'c'] %>",
   "rails.do = create(' %s ')",
   "",
   "# basic",
   "# output: rails.print('item') -> <%= item %>",
   "# extend logic",
   "rails.print = create('= %s ')",
   "rails.render = create('= render %s ')",
   "",
   "# loops",
   "rails.for = create(' for %s in %s ', ' end ')",
   "rails.while = create(' while %s ', ' end ')",
   "rails.each = create(' %s.each do |%s| ', ' end ')",
   "",
   "# if statements",
   "rails.if = create(' if %s ', ' end ')",
   "rails.elif = rails.if.append(' elsif %s ')",
   "rails.else = rails.if.append(' else ')",
   "",
   ""]

def web2pyLines : List String :=
  ["# WEB2PY Template Engine",
   "#",
   "# This is a template engine for basic web2py logic. A lot of the same logic can be reused to ",
   "# create template engines for other markup, such as Django and Rails",
   "",
   "web2py = TemplateEngine('\x7b\x7b%s\x7d\x7d')",
   "",
   "# logic we didn't account for: web2py.do(\"items = ['a', 'b', 'c']\") -> \x7b\x7bitems = ['a', 'b', 'c']\x7d\x7d",
   "web2py.do = create('%s')",
   "",
   "# basic",
   "# output: web2py.print('item') -> \x7b\x7b=item\x7d\x7d",
   "# extend logic",
   "web2py.print = create('=%s')",
   "web2py.extend = create('extend %s')",
   "",
   "# loops",
   "web2py.for = create('for %s in %s:', 'pass')",
   "web2py.while = create('while %s:', 'pass')",
   "",
   "# if statements",
   "web2py.if = create('if %s:', 'pass')",
   "web2py.elif = web2py.if.append('elif %s:')",
   "web2py.else = web2py.if.append('else:')",
   "",
   "# try blocks",
   "web2py.try = create('try:', 'pass')",
   "web2py.except = web2py.try.append('except %s:')",
   ""]

def joined (lines : List String) : Text := lines.flatMap fun l => l.toList ++ ['\n']

def modules : List (Text × Text) :=
  [("lib/common.pyml".toList, joined commonLines),
   ("lib/django.pyml".toList, joined djangoLines),
   ("lib/jinja2.pyml".toList, joined jinja2Lines),
   ("lib/rails.pyml".toList, joined railsLines),
   ("lib/web2py.pyml".toList, joined web2pyLines)]

end Library
end OutlineMarkup
